import ResourceManifest.Failure

/-!
How a list of records is written as YAML: one mapping in a block for each record, with texts
between double quotes. What stands between the quotes is printable ASCII, every other character
being escaped by its number, and reading it gives the text back.
-/

set_option autoImplicit false

namespace ResourceManifest.Yaml

/-- What the form of a document leaves open: the column of the signs before the records, and the
case of hexadecimal digits. -/
structure Layout where
  column : Nat := 0
  upper : Bool := true
  deriving DecidableEq, Repr

def isBare (c : Char) : Bool := 0x20 ≤ c.toNat && c.toNat ≤ 0x7E && c != '"' && c != '\\'

def isPlainChar (c : Char) : Bool := c.isAlphanum || c == '_'

def lastDigits (upper : Bool) : Nat → Nat → List Char
  | 0, _ => []
  | k + 1, n =>
    lastDigits upper k (n / 16) ++
      [if upper then (Nat.digitChar (n % 16)).toUpper else Nat.digitChar (n % 16)]

namespace Layout

variable (l : Layout)

def escape (c : Char) : List Char :=
  if isBare c then [c] else '\\' :: 'U' :: lastDigits l.upper 8 c.toNat

def quote (s : String) : List Char := '"' :: (s.toList.flatMap l.escape ++ ['"'])

end Layout

inductive Content where
  | word (text : String)
  | quoted (text : String)
  | flow (texts : List String)
  deriving DecidableEq, Repr

def Content.write (l : Layout) : Content → List Char
  | word s => s.toList
  | quoted s => l.quote s
  | flow ss => '[' :: (List.intercalate [',', ' '] (ss.map l.quote) ++ [']'])

/-- A member of a record. -/
structure Field where
  key : String
  value : Content
  deriving DecidableEq, Repr

/-- How the key of a member is written. -/
inductive Key where
  | word (text : String)
  | quoted (text : String)
  deriving DecidableEq, Repr

namespace Key

def text : Key → String
  | word s => s
  | quoted s => s

def style : Key → ScalarStyle
  | word _ => .plain
  | quoted _ => .doubleQuoted

def write (l : Layout) : Key → List Char
  | word s => s.toList
  | quoted s => l.quote s

end Key

namespace Layout

variable (l : Layout)

def writeField (f : Field) : List Char := f.key.toList ++ ':' :: ' ' :: (f.value.write l ++ ['\n'])

def writeMore (fs : List Field) : List Char :=
  fs.flatMap fun f => List.replicate (l.column + 2) ' ' ++ l.writeField f

def writeRecord : List Field → List Char
  | [] => []
  | f :: fs => List.replicate l.column ' ' ++ '-' :: ' ' :: (l.writeField f ++ l.writeMore fs)

def write (key : String) (rs : List (List Field)) : List Char :=
  key.toList ++ ':' :: '\n' :: rs.flatMap l.writeRecord

end Layout

structure IsWord (s : String) : Prop where
  ne_nil : s.toList ≠ []
  length_le : s.toList.length ≤ 1024
  chars : ∀ c ∈ s.toList, isPlainChar c = true

instance : DecidablePred IsWord := fun s =>
  decidable_of_iff (s.toList ≠ [] ∧ s.toList.length ≤ 1024 ∧ s.toList.all isPlainChar = true)
    ⟨fun ⟨hne, hlen, hall⟩ => ⟨hne, hlen, List.all_eq_true.1 hall⟩,
      fun h => ⟨h.ne_nil, h.length_le, List.all_eq_true.2 h.chars⟩⟩

/-- A member with a word as its key, and with another as its value where that is not quoted. -/
structure Field.IsPlain (f : Field) : Prop where
  key : IsWord f.key
  value : ∀ s, f.value = .word s → IsWord s

instance : DecidablePred Field.IsPlain
  | ⟨key, .word s⟩ => decidable_of_iff (IsWord key ∧ IsWord s)
    ⟨fun h => ⟨h.1, fun _ hs => Content.word.inj hs ▸ h.2⟩, fun h => ⟨h.key, h.value s rfl⟩⟩
  | ⟨key, .quoted _⟩ | ⟨key, .flow _⟩ => decidable_of_iff (IsWord key)
    ⟨fun h => ⟨h, nofun⟩, Field.IsPlain.key⟩

/-- A key that is no word has quotes; it may be of any length. -/
def Key.IsPlain (k : Key) : Prop :=
  ∀ s, k = .word s → s.toList ≠ [] ∧ ∀ c ∈ s.toList, isPlainChar c = true

theorem IsWord.isPlain {s : String} (h : IsWord s) : (Key.word s).IsPlain := by
  intro t ht
  cases ht
  exact ⟨h.ne_nil, h.chars⟩

theorem ne_of_isPlainChar {c d : Char} (hc : isPlainChar c = true) (hd : isPlainChar d = false) :
    c ≠ d := by
  rintro rfl
  rw [hc] at hd
  cases hd

theorem isBreakOrEnd_of_isPlainChar {c : Char} (h : isPlainChar c = true) :
    isBreakOrEnd c = false := by
  have hne := fun d => ne_of_isPlainChar (d := d) h
  simp [isBreakOrEnd, isBreak, isEnd, hne '\n' rfl, hne '\r' rfl, hne '\x85' rfl, hne '\u2028' rfl,
    hne '\u2029' rfl, hne '\x00' rfl]

theorem isBreak_of_isPlainChar {c : Char} (h : isPlainChar c = true) : isBreak c = false :=
  (Bool.or_eq_false_iff.1 (isBreakOrEnd_of_isPlainChar h)).1

theorem isSpaceOrTab_of_isPlainChar {c : Char} (h : isPlainChar c = true) :
    isSpaceOrTab c = false := by
  have hne := fun d => ne_of_isPlainChar (d := d) h
  simp [isSpaceOrTab, hne ' ' rfl, hne '\t' rfl]

theorem not_isBare_of_isBreak {c : Char} (h : isBreak c = true) : isBare c = false := by
  simp only [isBreak, Bool.or_eq_true, beq_iff_eq] at h
  rcases h with (((rfl | rfl) | rfl) | rfl) | rfl <;> rfl

theorem isBreak_of_isBare {c : Char} (h : isBare c = true) : isBreak c = false := by
  cases hb : isBreak c with
  | false => rfl
  | true =>
    rw [not_isBare_of_isBreak hb] at h
    cases h

section Digits

theorem isHexDigit_digit {d : Nat} (hd : d < 16) (upper : Bool) :
    isHexDigit (if upper then (Nat.digitChar d).toUpper else Nat.digitChar d) = true ∧
      hexDigitValue (if upper then (Nat.digitChar d).toUpper else Nat.digitChar d) = d := by
  have hall : ∀ d < 16, isHexDigit (Nat.digitChar d).toUpper = true ∧
      hexDigitValue (Nat.digitChar d).toUpper = d ∧ isHexDigit (Nat.digitChar d) = true ∧
      hexDigitValue (Nat.digitChar d) = d := by decide
  obtain ⟨h₁, h₂, h₃, h₄⟩ := hall d hd
  cases upper
  · exact ⟨h₃, h₄⟩
  · exact ⟨h₁, h₂⟩

theorem lastDigits_all (upper : Bool) (k n : Nat) :
    (lastDigits upper k n).all isHexDigit = true := by
  induction k generalizing n with
  | zero => rfl
  | succ k ih =>
    have hd := (isHexDigit_digit (Nat.mod_lt n (by decide : 0 < 16)) upper).1
    rw [lastDigits, List.all_append, ih, List.all_cons, hd]
    rfl

theorem foldl_lastDigits (upper : Bool) {k n : Nat} (h : n < Nat.pow 16 k) :
    (lastDigits upper k n).foldl (fun v d => v * 16 + hexDigitValue d) 0 = n := by
  induction k generalizing n with
  | zero => exact (Nat.lt_one_iff.1 h).symm
  | succ k ih =>
    have hlt : n / 16 < Nat.pow 16 k := by
      have hpow : Nat.pow 16 (k + 1) = Nat.pow 16 k * 16 := rfl
      omega
    have hd := (isHexDigit_digit (Nat.mod_lt n (by decide : 0 < 16)) upper).2
    rw [lastDigits, List.foldl_append, ih hlt, List.foldl_cons, hd, List.foldl_nil]
    omega

theorem exists_lastDigits_eight (upper : Bool) (n : Nat) :
    ∃ d₀ d₁ d₂ d₃ d₄ d₅ d₆ d₇, lastDigits upper 8 n = [d₀, d₁, d₂, d₃, d₄, d₅, d₆, d₇] :=
  ⟨_, _, _, _, _, _, _, _, rfl⟩

theorem codeChar_lastDigits (upper : Bool) (c : Char) :
    codeChar (lastDigits upper 8 c.toNat) = .ok c := by
  have hlt : c.toNat < Nat.pow 16 8 := by
    have hle := c.valid
    simp only [UInt32.isValidChar, Nat.isValidChar] at hle
    show c.val.toNat < 4294967296
    omega
  have hvalid : c.toNat.isValidChar := c.valid
  simp only [codeChar, lastDigits_all, foldl_lastDigits upper hlt, hvalid, if_true,
    Char.ofNat_toNat]

end Digits

section Reading

variable {start m : Mark} {text r : List Char} {gap : Gap} {c : Char}

def Gap.IsInLine : Gap → Prop
  | .lines _ _ => False
  | _ => True

theorem Gap.IsInLine.blank (h : gap.IsInLine) (c : Char) : (gap.blank c).IsInLine := by
  cases gap <;> exact h

theorem Gap.IsInLine.onto_blank (h : gap.IsInLine) (c : Char) (text : List Char) :
    (gap.blank c).onto text = c :: gap.onto text := by
  cases gap <;> first | rfl | exact h.elim

theorem look_none (rest : List Char) (n : Nat) : Cursor.look none rest n = .ok () := rfl

theorem atDocumentSign_of_pos (h : 0 < m.column) (rest : List Char) :
    Cursor.atDocumentSign rest m = false := by
  have hne : (m.column == 0) = false := by simpa using Nat.ne_of_gt h
  simp [Cursor.atDocumentSign, Cursor.atSign, hne]

theorem ensureNoSign_of_pos (hm : 0 < m.column) (rest : List Char) :
    ensureNoSign none start gap rest m = .ok () := by
  unfold ensureNoSign
  rw [atDocumentSign_of_pos hm]
  split <;> rfl

theorem readQuoted_close (hm : 0 < m.column) :
    readQuoted none start false ('"' :: r) m gap text =
      .ok ⟨(gap.onto text).reverse, r, m.right, false⟩ := by
  rw [readQuoted]
  · simp [look_none, isSpaceOrTab, isBreak, ensureNoSign_of_pos hm]
  · simp

theorem readQuoted_bare (hm : 0 < m.column) (hc : isBare c = true) (hne : c ≠ ' ') :
    readQuoted none start false (c :: r) m gap text =
      readQuoted none start false r m.right .none (c :: gap.onto text) := by
  have hbreak := isBreak_of_isBare hc
  have hnot : ∀ d, isBare d = false → c ≠ d := by
    rintro d hd rfl
    rw [hc] at hd
    cases hd
  have hblank : isSpaceOrTab c = false := by simp [isSpaceOrTab, hne, hnot '\t' rfl]
  rw [readQuoted]
  · simp [look_none, hbreak, hblank, ensureNoSign_of_pos hm, hnot '"' rfl, hnot '\\' rfl]
  · exact fun _ h => absurd h (hnot '\r' rfl)

theorem readQuoted_code (hm : 0 < m.column) (upper : Bool) (c : Char) :
    readQuoted none start false ('\\' :: 'U' :: (lastDigits upper 8 c.toNat ++ r)) m gap text =
      readQuoted none start false r (m.right 10) .none (c :: gap.onto text) := by
  have hcode := codeChar_lastDigits upper c
  obtain ⟨d₀, d₁, d₂, d₃, d₄, d₅, d₆, d₇, hds⟩ := exists_lastDigits_eight upper c.toNat
  rw [hds] at hcode ⊢
  simp only [List.cons_append, List.nil_append]
  have hescaped : escapedCode none start (m.right 2) 8
      (d₀ :: d₁ :: d₂ :: d₃ :: d₄ :: d₅ :: d₆ :: d₇ :: r) = .ok c := by
    have hlen : ¬ r.length + 8 < 8 := by omega
    simp [escapedCode, look_none, bind, Except.bind, hlen, hcode, mapError_ok]
  rw [readQuoted]
  · simp [look_none, isSpaceOrTab, isBreak, ensureNoSign_of_pos hm, hescaped]
  · simp

theorem Mark.right_right (m : Mark) (j k : Nat) : (m.right j).right k = m.right (j + k) := by
  simp only [Mark.right, Nat.add_assoc]

theorem readQuoted_escape (l : Layout) (s : List Char) (hm : 0 < m.column) (hgap : gap.IsInLine) :
    readQuoted none start false (s.flatMap l.escape ++ '"' :: r) m gap text =
      .ok ⟨(gap.onto text).reverse ++ s, r, m.right ((s.flatMap l.escape).length + 1), false⟩ := by
  induction s generalizing m gap text with
  | nil => simpa using readQuoted_close hm
  | cons c s ih =>
    have hlen : ((c :: s).flatMap l.escape).length + 1 =
        (l.escape c).length + ((s.flatMap l.escape).length + 1) := by
      rw [List.flatMap_cons, List.length_append, Nat.add_assoc]
    have hcons : (c :: gap.onto text).reverse ++ s = (gap.onto text).reverse ++ c :: s := by simp
    rw [hlen, ← Mark.right_right, ← hcons, List.flatMap_cons, List.append_assoc, Layout.escape]
    have hinner : Gap.IsInLine .none := trivial
    by_cases hbare : isBare c = true
    · rw [if_pos hbare, List.singleton_append]
      by_cases hblank : c = ' '
      · rw [hblank, readQuoted_blank, ih (Nat.succ_pos _) (hgap.blank ' '), hgap.onto_blank]
        rfl
      · rw [readQuoted_bare hm hbare hblank, ih (Nat.succ_pos _) hinner]
        rfl
    · rw [if_neg hbare, List.cons_append, List.cons_append, readQuoted_code hm,
        ih (Nat.succ_pos _) hinner]
      rfl

theorem readPlain_char (inFlow : Bool) (margin : Nat) (hc : isPlainChar c = true) :
    readPlain none start inFlow margin (c :: r) m .none text =
      readPlain none start inFlow margin r m.right .none (c :: text) := by
  have hne := fun d => ne_of_isPlainChar (d := d) hc
  have hblank := isSpaceOrTab_of_isPlainChar hc
  have hbreak := isBreak_of_isPlainChar hc
  rw [readPlain]
  · simp [look_none, bind, Except.bind, hblank, hbreak, hne ':' rfl, isFlowSign, hne ',' rfl,
      hne '[' rfl, hne ']' rfl, hne '\x7b' rfl, hne '\x7d' rfl, Gap.isNone, Gap.onto]
  · exact fun _ h => absurd h (hne '\r' rfl)

theorem readPlain_word (inFlow : Bool) (margin : Nat) {w : List Char}
    (hw : ∀ c ∈ w, isPlainChar c = true) :
    readPlain none start inFlow margin (w ++ r) m .none text =
      readPlain none start inFlow margin r (m.right w.length) .none (w.reverse ++ text) := by
  induction w generalizing m text with
  | nil => rfl
  | cons c w ih =>
    rw [List.cons_append, readPlain_char inFlow margin (hw c List.mem_cons_self),
      ih fun d hd => hw d (List.mem_cons_of_mem c hd), Mark.right_right, List.length_cons,
      Nat.add_comm, List.reverse_cons, List.append_assoc, List.singleton_append]

theorem readPlain_colon (margin : Nat) (hc : isGap c = true) :
    readPlain none start false margin (':' :: c :: r) m .none text =
      .ok ⟨text.reverse, ':' :: c :: r, m, false⟩ := by
  rw [readPlain]
  · simp [look_none, bind, Except.bind, isSpaceOrTab, isBreak, Gap.isNone, hc, Gap.isLines]
  · simp

def IsStop (next : List Char) : Prop :=
  ∀ c, next.head? = some c → isSpaceOrTab c = false ∧ isBreak c = false

theorem readPlain_stop {margin : Nat} (hm : m.column < margin) (hr : IsStop r) :
    readPlain none start false margin r m (.lines (some '\n') []) text =
      .ok ⟨text.reverse, r, m, true⟩ := by
  cases r with
  | nil => rw [readPlain]; rfl
  | cons c r =>
    obtain ⟨hblank, hbreak⟩ := hr c rfl
    have hne : c ≠ '\r' := by
      rintro rfl
      cases hbreak
    rw [readPlain]
    · simp [look_none, bind, Except.bind, hblank, hbreak, Gap.isNone, Gap.isLines, hm]
    · exact fun _ h => absurd h hne

theorem readPlain_blanks {margin k : Nat} (hm : m.column + k < margin) (hr : IsStop r) :
    readPlain none start false margin (List.replicate k ' ' ++ r) m (.lines (some '\n') []) text =
      .ok ⟨text.reverse, r, m.right k, true⟩ := by
  induction k generalizing m with
  | zero => exact readPlain_stop hm hr
  | succ k ih =>
    have hnext : m.right.column + k < margin := by
      show m.column + 1 + k < margin
      omega
    rw [Nat.add_comm k 1, ← Mark.right_right, ← ih hnext, Nat.add_comm 1 k, List.replicate_succ,
      List.cons_append, readPlain_blank]
    rfl

theorem readPlain_line {margin k : Nat} (hk : k < margin) (hr : IsStop r) :
    readPlain none start false margin ('\n' :: (List.replicate k ' ' ++ r)) m .none text =
      .ok ⟨text.reverse, r, (m.down 1).right k, true⟩ := by
  rw [readPlain]
  · simp only [look_none, bind, Except.bind, isSpaceOrTab, isBreak]
    exact readPlain_blanks (by simpa [Mark.down] using hk) hr
  · simp

end Reading

end ResourceManifest.Yaml
