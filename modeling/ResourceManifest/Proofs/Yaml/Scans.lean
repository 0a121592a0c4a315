import ResourceManifest.Proofs.Yaml.Writing
import ResourceManifest.Yaml.Scan

set_option autoImplicit false

namespace ResourceManifest.Yaml

namespace Scanner

/-- Within `n` steps the scanner gives out tokens of these kinds and is then at `t`. -/
def Scans (n : Nat) (s : Scanner) (kinds : List TokenKind) (t : Scanner) : Prop :=
  ∃ k ts, k ≤ n ∧ ts.map Token.kind = kinds ∧
    ∀ fuel, run (k + fuel) s = (ts ++ (run fuel t).1, (run fuel t).2)

variable {s s' t u : Scanner} {n j : Nat} {ks ls : List TokenKind} {m : Mark} {c : Char}
  {r : List Char}

namespace Scans

theorem refl (s : Scanner) : Scans 0 s [] s :=
  ⟨0, [], Nat.le_refl 0, rfl, fun fuel => by rw [Nat.zero_add, List.nil_append]⟩

theorem mono (h : Scans n s ks t) (hn : n ≤ j) : Scans j s ks t := by
  obtain ⟨k, ts, hk, hts, hrun⟩ := h
  exact ⟨k, ts, Nat.le_trans hk hn, hts, hrun⟩

theorem append (h : Scans n s ks t) (h' : Scans j t ls u) : Scans (n + j) s (ks ++ ls) u := by
  obtain ⟨k, ts, hk, rfl, hrun⟩ := h
  obtain ⟨k', ts', hk', rfl, hrun'⟩ := h'
  refine ⟨k + k', ts ++ ts', Nat.add_le_add hk hk', List.map_append, fun fuel => ?_⟩
  rw [Nat.add_assoc, hrun, hrun', List.append_assoc]

theorem of_fetch_eq (hs : s.waiting = []) (ht : t.waiting = []) (hse : s.ended = false)
    (hte : t.ended = false) (h : s.fetch = t.fetch) : Scans 0 s [] t := by
  refine ⟨0, [], Nat.le_refl 0, rfl, fun fuel => ?_⟩
  rw [Nat.zero_add, List.nil_append]
  cases fuel with
  | zero => rfl
  | succ fuel => simp only [run, hs, ht, hse, hte, h]

theorem fetch (hs : s.waiting = []) (he : s.ended = false) (h : s.fetch = .ok t) :
    Scans 1 s [] t := by
  refine ⟨1, [], Nat.le_refl 1, rfl, fun fuel => ?_⟩
  rw [Nat.add_comm, run, hs, h, he]
  rfl

theorem wait (hs : s.waiting ≠ []) (hd : s.dropPastKeys = .ok s) (hk : s.mayBeKey s.given = true)
    (h : s.fetch = .ok t) : Scans 1 s [] t := by
  obtain ⟨w, ws, hw⟩ := List.exists_cons_of_ne_nil hs
  refine ⟨1, [], Nat.le_refl 1, rfl, fun fuel => ?_⟩
  rw [Nat.add_comm, run]
  simp only [hw, hd, hk, if_true, h, List.nil_append]

theorem give {w : Token} {ws : List Token} (hs : s'.waiting = w :: ws)
    (hd : s.dropPastKeys = .ok s') (hw : s.waiting = s'.waiting)
    (hk : s'.mayBeKey s'.given = false) :
    Scans 1 s [w.kind] { s' with waiting := ws, given := s'.given + 1 } := by
  refine ⟨1, [w], Nat.le_refl 1, rfl, fun fuel => ?_⟩
  rw [Nat.add_comm, run]
  simp only [hw, hs, hd, hk, Bool.false_eq_true, if_false, List.singleton_append]

end Scans

/-- Within `n` steps the scanner meets a fault, after giving out tokens of these kinds. -/
def Fails (n : Nat) (s : Scanner) (kinds : List TokenKind) : Prop :=
  ∃ k ts f, k ≤ n ∧ ts.map Token.kind = kinds ∧ ∀ fuel, run (k + fuel) s = (ts, some f)

theorem Fails.mono (h : Fails n s ks) (hn : n ≤ j) : Fails j s ks := by
  obtain ⟨k, ts, f, hk, hts, hrun⟩ := h
  exact ⟨k, ts, f, Nat.le_trans hk hn, hts, hrun⟩

theorem Scans.fails (h : Scans n s ks t) (h' : Fails j t ls) : Fails (n + j) s (ks ++ ls) := by
  obtain ⟨k, ts, hk, rfl, hrun⟩ := h
  obtain ⟨k', ts', f, hk', rfl, hrun'⟩ := h'
  refine ⟨k + k', ts ++ ts', f, Nat.add_le_add hk hk', List.map_append, fun fuel => ?_⟩
  rw [Nat.add_assoc, hrun, hrun']

theorem Fails.of_fetch {f : Fault} (hs : s.waiting = []) (he : s.ended = false)
    (h : s.fetch = .error f) : Fails 1 s [] := by
  refine ⟨1, [], f, Nat.le_refl 1, rfl, fun fuel => ?_⟩
  rw [Nat.add_comm, run, hs, h, he]
  rfl

theorem Fails.of_dropPastKeys {f : Fault} (hs : s.waiting ≠ []) (h : s.dropPastKeys = .error f) :
    Fails 1 s [] := by
  obtain ⟨w, ws, hw⟩ := List.exists_cons_of_ne_nil hs
  refine ⟨1, [], f, Nat.le_refl 1, rfl, fun fuel => ?_⟩
  rw [Nat.add_comm, run]
  simp only [hw, h]

def NoOuterKeys (s : Scanner) : Prop := ∀ k ∈ s.outerKeys, k = none

theorem NoOuterKeys.map_filter (h : s.NoOuterKeys) (p : OpenKey → Bool) :
    s.outerKeys.map (·.filter p) = s.outerKeys := by
  calc
    s.outerKeys.map (·.filter p) = s.outerKeys.map id :=
      List.map_congr_left fun k hk => by rw [h k hk]; rfl
    _ = s.outerKeys := List.map_id s.outerKeys

theorem reduceOption_eq {α : Type} (xs : List (Option α)) : xs.reduceOption = xs.filterMap id := rfl

theorem NoOuterKeys.reduceOption (h : s.NoOuterKeys) : s.outerKeys.reverse.reduceOption = [] := by
  rw [reduceOption_eq, List.filterMap_eq_nil_iff]
  exact fun k hk => h k (List.mem_reverse.1 hk)

theorem NoOuterKeys.openKeys (h : s.NoOuterKeys) {k : OpenKey} (hk : s.openKey = some k) :
    (s.openKey :: s.outerKeys).reverse.reduceOption = [k] := by
  rw [hk, List.reverse_cons, reduceOption_eq, List.filterMap_append, ← reduceOption_eq,
    h.reduceOption]
  rfl

theorem NoOuterKeys.dropPastKeys_error (h : s.NoOuterKeys) {k : OpenKey} (hk : s.openKey = some k)
    (hr : k.required = true) (hp : k.isPast s.mark = true) :
    ∃ f, s.dropPastKeys = .error f := by
  refine ⟨.misplaced .noColon s.mark (some (.simpleKey, k.mark)), ?_⟩
  simp only [Scanner.dropPastKeys, h.openKeys hk, List.find?_cons, hr, hp, Bool.and_self, noColon]

theorem NoOuterKeys.dropPastKeys (h : s.NoOuterKeys) {k : OpenKey} (hk : s.openKey = some k)
    (hp : k.required = true → k.isPast s.mark = false) :
    s.dropPastKeys = .ok { s with openKey := (some k).filter (!OpenKey.isPast · s.mark) } := by
  have hkeys := h.openKeys hk
  rw [hk] at hkeys
  have hfind : (k.required && k.isPast s.mark) = false := by
    cases hr : k.required with
    | false => rfl
    | true => rw [hp hr]; rfl
  simp only [Scanner.dropPastKeys, hk, hkeys, List.find?_cons, hfind, List.find?_nil, h.map_filter]

structure NoKeys (s : Scanner) : Prop where
  here : s.openKey = none
  outer : s.NoOuterKeys

namespace NoKeys

theorem dropPastKeys (h : s.NoKeys) : s.dropPastKeys = .ok s := by
  have hkeys : (s.openKey :: s.outerKeys).reverse.reduceOption = [] := by
    rw [List.reverse_cons, reduceOption_eq, List.filterMap_append, ← reduceOption_eq,
      h.outer.reduceOption, h.here]
    rfl
  obtain ⟨_, _, _, _, _, openKey, _, _, _⟩ := s
  obtain rfl : openKey = none := h.here
  simp only [Scanner.dropPastKeys, hkeys, List.find?_nil, h.outer.map_filter]
  rfl

theorem mayBeKey (h : s.NoKeys) (n : Nat) : s.mayBeKey n = false := by
  rw [Scanner.mayBeKey, List.any_eq_false]
  intro k hk
  rcases List.mem_cons.1 hk with rfl | hk
  · simp [h.here]
  · simp [h.outer k hk]

theorem drain (h : s.NoKeys) :
    Scans s.waiting.length s (s.waiting.map Token.kind)
      { s with waiting := [], given := s.given + s.waiting.length } := by
  generalize hw : s.waiting = ws
  induction ws generalizing s with
  | nil =>
    obtain ⟨_, _, _, _, _, _, _, _, _⟩ := s
    obtain rfl := hw
    exact .refl _
  | cons w ws ih =>
    have hgive := Scans.give hw h.dropPastKeys rfl (h.mayBeKey _)
    have hrest := ih (s := { s with waiting := ws, given := s.given + 1 }) ⟨h.here, h.outer⟩ rfl
    have hlen : s.given + 1 + ws.length = s.given + (w :: ws).length := by
      rw [List.length_cons]
      omega
    rw [← hlen, List.length_cons, Nat.add_comm ws.length]
    exact hgive.append hrest

theorem fetched (h : t.NoKeys) (hw : s.waiting = []) (he : s.ended = false)
    (hfetch : s.fetch = .ok t) :
    Scans (1 + t.waiting.length) s (t.waiting.map Token.kind)
      { t with waiting := [], given := t.given + t.waiting.length } :=
  (Scans.fetch hw he hfetch).append h.drain

end NoKeys

/-! Blanks and line feeds before a token. -/

def startsToken (c : Char) : Bool := !(isGap c || c == '#' || c == '\uFEFF')

theorem startsToken_of_isPlainChar (h : isPlainChar c = true) : startsToken c = true := by
  have hne := fun d => ne_of_isPlainChar (d := d) h
  simp [startsToken, isGap, isSpaceOrTab_of_isPlainChar h, isBreakOrEnd_of_isPlainChar h,
    hne '#' rfl, hne '\uFEFF' rfl]

theorem isGap_of_isPlainChar (h : isPlainChar c = true) : isGap c = false := by
  rw [isGap, isSpaceOrTab_of_isPlainChar h, isBreakOrEnd_of_isPlainChar h]
  rfl

theorem not_isPlainChar_of_isIndicator (h : isIndicator c = true) : isPlainChar c = false := by
  rw [isIndicator, List.contains_iff_mem] at h
  have hall : ['-', '?', ':', ',', '[', ']', '\x7b', '\x7d', '#', '&', '*', '!', '|', '>', '\'', '"',
      '%', '@', '`'].all (!isPlainChar ·) = true := rfl
  simpa using List.all_eq_true.1 hall c h

theorem isIndicator_of_isPlainChar (h : isPlainChar c = true) : isIndicator c = false := by
  cases hi : isIndicator c with
  | false => rfl
  | true => exact absurd h (by rw [not_isPlainChar_of_isIndicator hi]; decide)

theorem skipToToken_of_startsToken (hcur : s.cursor = ⟨c :: r, m, none⟩)
    (hc : startsToken c = true) : s.skipToToken = .ok s := by
  simp only [startsToken, isGap, isBreakOrEnd, isSpaceOrTab, Bool.not_eq_true',
    Bool.or_eq_false_iff, beq_eq_false_iff_ne] at hc
  obtain ⟨⟨⟨⟨hspace, htab⟩, hbreak, -⟩, hhash⟩, hmark⟩ := hc
  have hcr : c ≠ '\r' := by
    rintro rfl
    cases hbreak
  obtain ⟨cursor, _, _, _, _, _, _, _, _⟩ := s
  obtain rfl : cursor = _ := hcur
  rw [skipToToken, skipGap]
  · simp [mark, hbreak, hspace, htab, hhash, hmark, bind, Except.bind]
  · exact fun _ h => absurd h hcr

theorem skipToToken_nil (hcur : s.cursor = ⟨[], m, none⟩) : s.skipToToken = .ok s := by
  obtain ⟨cursor, _, _, _, _, _, _, _, _⟩ := s
  obtain rfl : cursor = _ := hcur
  rfl

theorem fetch_eq_of_skipToToken_eq (h : s.skipToToken = t.skipToToken) : s.fetch = t.fetch := by
  rw [Scanner.fetch, h, ← Scanner.fetch]

theorem skipToToken_space (hcur : s.cursor = ⟨' ' :: r, m, none⟩) :
    s.skipToToken = { s with cursor := ⟨r, m.right, none⟩ }.skipToToken := by
  simp only [skipToToken, mark, hcur, inFlow, skipGap_blank]

theorem skipToToken_lineFeed (hcur : s.cursor = ⟨'\n' :: r, m, none⟩) (ho : s.outerKeys = []) :
    s.skipToToken =
      { s with cursor := ⟨r, m.down 1, none⟩, keyAllowed := true }.skipToToken := by
  simp [skipToToken, mark, hcur, inFlow, ho, skipGap_lineFeed]

/-! What is fetched, by the first character of a token. -/

theorem cursor_closeTo (margin : Nat) (s : Scanner) (ms : List Nat) :
    (closeTo margin s ms).cursor = s.cursor := by
  induction ms generalizing s with
  | nil => rfl
  | cons outer ms ih =>
    rw [closeTo]
    split
    · rw [ih]
      rfl
    · rfl

theorem cursor_unindent (s : Scanner) (margin : Nat) : (s.unindent margin).cursor = s.cursor := by
  unfold unindent
  split
  · rfl
  · exact cursor_closeTo margin s s.margins

section Fetch

variable (hcur : s.cursor = ⟨c :: r, m, none⟩) (hd : s.dropPastKeys = .ok s)
include hcur hd

theorem fetch_word (hc : isPlainChar c = true) :
    s.fetch = (s.unindent (m.column + 1)).plainScalar := by
  have hne := fun d => ne_of_isPlainChar (d := d) hc
  have hu := (cursor_unindent s (m.column + 1)).trans hcur
  have hend := (Bool.or_eq_false_iff.1 (isBreakOrEnd_of_isPlainChar hc)).2
  have hplain : (s.unindent (m.column + 1)).startsPlain = true := by
    simp [startsPlain, hu, Cursor.peek, isGap_of_isPlainChar hc, isIndicator_of_isPlainChar hc]
  simp only [fetch, skipToToken_of_startsToken hcur (startsToken_of_isPlainChar hc), hd,
    bind, Except.bind, mark, hcur, Cursor.need, hu, look_none, Cursor.peek, List.headD_cons, hend,
    Cursor.atSign, List.take_succ_cons, List.cons_beq_cons, beq_eq_false_iff_ne.2 (hne '-' rfl),
    beq_eq_false_iff_ne.2 (hne '.' rfl), Bool.false_and, Bool.and_false, Bool.false_eq_true,
    hne '%' rfl, hne '[' rfl, hne ']' rfl, hne '\x7b' rfl, hne '\x7d' rfl, hne ',' rfl, hne '-' rfl,
    hne '?' rfl, hne ':' rfl, hne '*' rfl, hne '&' rfl, hne '!' rfl, hne '|' rfl, hne '>' rfl,
    hne '\'' rfl, hne '"' rfl, false_and, and_false, or_false, if_false, hplain, if_true]

end Fetch

def act? : Char → Option (Scanner → Except Fault Scanner)
  | '[' => some (openFlow · .flowSequenceStart)
  | ']' => some (closeFlow · .flowSequenceEnd)
  | ',' => some flowEntry
  | '"' => some (quotedScalar · false)
  | _ => none

section FetchSign

variable {d : Char} (hd : s.dropPastKeys = .ok s)
include hd

theorem fetch_sign {act : Scanner → Except Fault Scanner} (hact : act? c = some act)
    (hcur : s.cursor = ⟨c :: r, m, none⟩) : s.fetch = act (s.unindent (m.column + 1)) := by
  have hu := (cursor_unindent s (m.column + 1)).trans hcur
  unfold act? at hact
  split at hact <;> cases hact <;>
    simp [fetch, skipToToken_of_startsToken hcur rfl, hd, bind, Except.bind, mark, hcur,
      Cursor.need, hu, look_none, Cursor.peek, isEnd, Cursor.atSign]

theorem fetch_colon (hcur : s.cursor = ⟨':' :: d :: r, m, none⟩) (hgap : isGap d = true) :
    s.fetch = (s.unindent (m.column + 1)).value := by
  have hu := (cursor_unindent s (m.column + 1)).trans hcur
  simp [fetch, skipToToken_of_startsToken hcur rfl, hd, bind, Except.bind, mark, hcur, Cursor.need,
    hu, look_none, Cursor.peek, Cursor.peekAt, isEnd, Cursor.atSign, hgap]

theorem fetch_dash (hcur : s.cursor = ⟨'-' :: ' ' :: r, m, none⟩) :
    s.fetch = (s.unindent (m.column + 1)).blockEntry := by
  have hu := (cursor_unindent s (m.column + 1)).trans hcur
  simp [fetch, skipToToken_of_startsToken hcur rfl, hd, bind, Except.bind, mark, hcur, Cursor.need,
    hu, look_none, Cursor.peek, Cursor.peekAt, isEnd, Cursor.atSign, isGap, isSpaceOrTab]

theorem fetch_end (hcur : s.cursor = ⟨[], m, none⟩) :
    s.fetch = (s.unindent (m.column + 1)).finish := by
  have hu := (cursor_unindent s (m.column + 1)).trans hcur
  simp [fetch, skipToToken_nil hcur, hd, bind, Except.bind, mark, hcur, Cursor.need,
    hu, look_none, Cursor.peek, isEnd]

end FetchSign

end Scanner

end ResourceManifest.Yaml
