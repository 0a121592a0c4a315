import ResourceManifest.Proofs.Yaml.Writing

set_option autoImplicit false

namespace ResourceManifest.Yaml

def isTextChar (c : Char) : Bool := c == '\n' || (0x20 ≤ c.toNat && c.toNat ≤ 0x7E)

namespace Source

theorem toNat_lt_of_isTextChar {c : Char} (h : isTextChar c = true) : c.toNat < 0x80 := by
  simp only [isTextChar, Bool.or_eq_true, beq_iff_eq, Bool.and_eq_true, decide_eq_true_eq] at h
  rcases h with rfl | ⟨-, h⟩
  · decide
  · omega

theorem isAllowed_of_isTextChar {c : Char} (h : isTextChar c = true) :
    isAllowed c.toNat = true := by
  simp only [isTextChar, Bool.or_eq_true, beq_iff_eq, Bool.and_eq_true, decide_eq_true_eq] at h
  rcases h with rfl | ⟨h₁, h₂⟩
  · rfl
  · simp [isAllowed, h₁, h₂]

theorem width?_of_lt {n : Nat} (h : n < 0x80) : width? (UInt8.ofNat n) = some 1 := by
  have hlt : UInt8.ofNat n < 0x80 := by
    rw [UInt8.lt_iff_toNat_lt, Utf8.toNat_ofNat (by omega)]
    exact h
  rw [width?, if_pos hlt]

theorem character_of_isTextChar {c : Char} (h : isTextChar c = true) (offset : Nat) :
    character offset (UInt8.ofNat c.toNat) [] = .ok c := by
  have hlt := toNat_lt_of_isTextChar h
  have hbits : leadBits 1 (UInt8.ofNat c.toNat) = c.toNat := by
    rw [leadBits, Utf8.toNat_ofNat (by omega), if_pos rfl, Nat.mod_eq_of_lt hlt]
  have hmany : ¬ (0xD800 ≤ c.toNat ∧ c.toNat ≤ 0xDFFF ∨ 0x10FFFF < c.toNat) := by omega
  simp [character, gather, hbits, leastOfWidth, hmany, isAllowed_of_isTextChar h, Char.ofNat_toNat]

theorem decode_map {cs : List Char} (hcs : ∀ c ∈ cs, isTextChar c = true) (fuel room : Nat)
    (hfuel : 2 * cs.length ≤ fuel + min room 1) (offset : Nat) (block before : List Char) :
    decode fuel room offset block before (cs.map fun c => UInt8.ofNat c.toNat) =
      ⟨(block ++ before).reverse ++ cs, none⟩ := by
  induction fuel generalizing cs room offset block before with
  | zero =>
    obtain rfl : cs = [] := List.eq_nil_of_length_eq_zero (by omega)
    simp [decode]
  | succ fuel ih =>
    cases cs with
    | nil => simp [decode]
    | cons c cs =>
      have hc := hcs c List.mem_cons_self
      have hmore : ∀ d ∈ cs, isTextChar d = true := fun d hd => hcs d (List.mem_cons_of_mem c hd)
      rw [List.length_cons] at hfuel
      by_cases hroom : room = 0
      · have hblock : blockSize = 16384 := rfl
        have hopen := ih hcs blockSize (by rw [List.length_cons]; omega) offset []
          (block ++ before)
        rw [List.map_cons] at hopen ⊢
        rw [decode, if_pos hroom, hopen]
        rfl
      · have hwidth := width?_of_lt (toNat_lt_of_isTextChar hc)
        have hstep := ih hmore (room - 1) (by omega) (offset + 1) (c :: block) before
        have hone : ¬ room < 1 := by omega
        rw [List.map_cons, decode, if_neg hroom]
        simp [hwidth, hone, character_of_isTextChar hc, hstep]

theorem ofBytes_encodeChars {cs : List Char} (h : ∀ c ∈ cs, isTextChar c = true) :
    ofBytes (Utf8.encodeChars cs) = ⟨cs, none⟩ := by
  rw [ofBytes, Utf8.encodeChars_of_ascii fun c hc => toNat_lt_of_isTextChar (h c hc), decode_map h]
  · rfl
  · rw [List.length_map]
    omega

end Source

section Written

variable (l : Layout)

theorem isTextChar_of_isBare {c : Char} (h : isBare c = true) : isTextChar c = true := by
  simp only [isBare, Bool.and_eq_true] at h
  simp [isTextChar, h.1.1.1, h.1.1.2]

theorem isTextChar_of_range {a b c : Char} (ha : 0x20 ≤ a.toNat) (hb : b.toNat ≤ 0x7E)
    (h₁ : a ≤ c) (h₂ : c ≤ b) : isTextChar c = true := by
  have h₁ : a.toNat ≤ c.toNat := h₁
  have h₂ : c.toNat ≤ b.toNat := h₂
  have hlow : 0x20 ≤ c.toNat := by omega
  have hhigh : c.toNat ≤ 0x7E := by omega
  simp [isTextChar, hlow, hhigh]

theorem isTextChar_of_isPlainChar {c : Char} (h : isPlainChar c = true) : isTextChar c = true := by
  have h : (((decide ('A' ≤ c ∧ c ≤ 'Z') || (decide ('a' ≤ c) && decide (c ≤ 'z'))) ||
      (decide ('0' ≤ c) && decide (c ≤ '9'))) || c == '_') = true := h
  simp only [Bool.or_eq_true, beq_iff_eq, Bool.and_eq_true, decide_eq_true_eq] at h
  rcases h with ((⟨h₁, h₂⟩ | ⟨h₁, h₂⟩) | ⟨h₁, h₂⟩) | rfl
  · exact isTextChar_of_range (a := 'A') (b := 'Z') (by decide) (by decide) h₁ h₂
  · exact isTextChar_of_range (a := 'a') (b := 'z') (by decide) (by decide) h₁ h₂
  · exact isTextChar_of_range (a := '0') (b := '9') (by decide) (by decide) h₁ h₂
  · rfl

theorem isTextChar_of_isHexDigit {c : Char} (h : isHexDigit c = true) : isTextChar c = true := by
  simp only [isHexDigit, Bool.or_eq_true, Char.isDigit, Bool.and_eq_true, decide_eq_true_eq] at h
  rcases h with (⟨h₁, h₂⟩ | ⟨h₁, h₂⟩) | ⟨h₁, h₂⟩
  · exact isTextChar_of_range (a := '0') (b := '9') (by decide) (by decide) h₁ h₂
  · exact isTextChar_of_range (a := 'a') (b := 'f') (by decide) (by decide) h₁ h₂
  · exact isTextChar_of_range (a := 'A') (b := 'F') (by decide) (by decide) h₁ h₂

theorem all_escape (c : Char) : (l.escape c).all isTextChar = true := by
  unfold Layout.escape
  split
  case isTrue h => simp [isTextChar_of_isBare h]
  case isFalse h =>
    have hdigits : (lastDigits l.upper 8 c.toNat).all isTextChar = true :=
      List.all_eq_true.2 fun d hd =>
        isTextChar_of_isHexDigit (List.all_eq_true.1 (lastDigits_all l.upper 8 c.toNat) d hd)
    rw [List.all_cons, List.all_cons, hdigits]
    rfl

theorem all_quote (s : String) : (l.quote s).all isTextChar = true := by
  have hchars : (s.toList.flatMap l.escape).all isTextChar = true := by
    rw [List.all_flatMap]
    exact List.all_eq_true.2 fun c _ => all_escape l c
  rw [Layout.quote, List.all_cons, List.all_append, hchars]
  rfl

theorem all_quotes (ss : List String) :
    (List.intercalate [',', ' '] (ss.map l.quote)).all isTextChar = true := by
  induction ss with
  | nil => rfl
  | cons s ss ih =>
    cases ss with
    | nil => simpa using all_quote l s
    | cons t ss =>
      rw [List.map_cons, List.map_cons, List.intercalate_cons_cons, ← List.map_cons,
        List.all_append, List.all_append, ih, all_quote]
      rfl

theorem all_word {s : String} (h : IsWord s) : s.toList.all isTextChar = true :=
  List.all_eq_true.2 fun c hc => isTextChar_of_isPlainChar (h.chars c hc)

theorem all_writeField {f : Field} (h : f.IsPlain) : (l.writeField f).all isTextChar = true := by
  have hvalue : (f.value.write l).all isTextChar = true := by
    cases hv : f.value with
    | word s => exact all_word (h.value s hv)
    | quoted s => exact all_quote l s
    | flow ss =>
      rw [Content.write, List.all_cons, List.all_append, all_quotes]
      rfl
  simp only [Layout.writeField, List.all_append, List.all_cons, all_word h.key, hvalue]
  rfl

theorem all_replicate (n : Nat) : (List.replicate n ' ').all isTextChar = true :=
  List.all_eq_true.2 fun _ hc => (List.eq_of_mem_replicate hc) ▸ rfl

theorem all_writeRecord {fs : List Field} (h : ∀ f ∈ fs, f.IsPlain) :
    (l.writeRecord fs).all isTextChar = true := by
  cases fs with
  | nil => rfl
  | cons f fs =>
    have hmore : (l.writeMore fs).all isTextChar = true := by
      rw [Layout.writeMore, List.all_flatMap]
      refine List.all_eq_true.2 fun g hg => ?_
      rw [List.all_append, all_replicate, all_writeField l (h g (List.mem_cons_of_mem f hg))]
      rfl
    simp only [Layout.writeRecord, List.all_append, List.all_cons, all_replicate, hmore,
      all_writeField l (h f List.mem_cons_self)]
    rfl

theorem isTextChar_of_mem_write {key : String} (hkey : IsWord key) {rs : List (List Field)}
    (hrs : ∀ fs ∈ rs, ∀ f ∈ fs, f.IsPlain) : ∀ c ∈ l.write key rs, isTextChar c = true := by
  have hall : (rs.flatMap l.writeRecord).all isTextChar = true := by
    rw [List.all_flatMap]
    exact List.all_eq_true.2 fun fs hfs => all_writeRecord l (hrs fs hfs)
  refine List.all_eq_true.1 ?_
  simp only [Layout.write, List.all_append, List.all_cons, all_word hkey, hall]
  rfl

end Written

end ResourceManifest.Yaml
