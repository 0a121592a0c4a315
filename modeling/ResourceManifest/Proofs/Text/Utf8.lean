import ResourceManifest.Text.Utf8

/-!
Bytes that are read as characters only are the bytes that these characters are encoded to. A byte
that is a character by itself is read as that one wherever it stands, and cuts the reading in two.
-/

set_option autoImplicit false

namespace ResourceManifest.Utf8

section Lead

variable {a b c d : UInt8}

theorem toNat_of_isSecondOfThree (h : isSecondOfThree a b = true) :
    0x80 ≤ b.toNat ∧ b.toNat ≤ 0xBF ∧ (a.toNat = 0xE0 → 0xA0 ≤ b.toNat) ∧
      (a.toNat = 0xED → b.toNat ≤ 0x9F) := by
  unfold isSecondOfThree at h
  split at h
  · next ha =>
    subst ha
    simp [UInt8.le_iff_toNat_le] at h ⊢
    omega
  · next ha =>
    have ha' : a.toNat ≠ 0xE0 := fun he => ha (UInt8.toNat_inj.1 he)
    split at h
    · next hd =>
      subst hd
      simp [UInt8.le_iff_toNat_le] at h ⊢
      omega
    · next hd =>
      have hd' : a.toNat ≠ 0xED := fun he => hd (UInt8.toNat_inj.1 he)
      have hb := isContinuation_iff.1 h
      omega

theorem toNat_of_isSecondOfFour (h : isSecondOfFour a b = true) :
    0x80 ≤ b.toNat ∧ b.toNat ≤ 0xBF ∧ (a.toNat = 0xF0 → 0x90 ≤ b.toNat) ∧
      (a.toNat = 0xF4 → b.toNat ≤ 0x8F) := by
  unfold isSecondOfFour at h
  split at h
  · next ha =>
    subst ha
    simp [UInt8.le_iff_toNat_le] at h ⊢
    omega
  · next ha =>
    have ha' : a.toNat ≠ 0xF0 := fun he => ha (UInt8.toNat_inj.1 he)
    split at h
    · next hd =>
      subst hd
      simp [UInt8.le_iff_toNat_le] at h ⊢
      omega
    · next hd =>
      have hd' : a.toNat ≠ 0xF4 := fun he => hd (UInt8.toNat_inj.1 he)
      have hb := isContinuation_iff.1 h
      omega

theorem ofNat_eq {m : Nat} (h : a.toNat = m) : UInt8.ofNat m = a := by
  rw [← h, UInt8.ofNat_toNat]

theorem utf8EncodeChar_ofNat {v : Nat} (h : v < 0xD800 ∨ 0xDFFF < v ∧ v < 0x110000) :
    String.utf8EncodeChar (Char.ofNat v) =
      if v ≤ 127 then [UInt8.ofNat v]
      else if v ≤ 2047 then [UInt8.ofNat (v / 64 % 32 + 192), UInt8.ofNat (v % 64 + 128)]
      else if v ≤ 65535 then [UInt8.ofNat (v / 4096 % 16 + 224),
        UInt8.ofNat (v / 64 % 64 + 128), UInt8.ofNat (v % 64 + 128)]
      else [UInt8.ofNat (v / 262144 % 8 + 240), UInt8.ofNat (v / 4096 % 64 + 128),
        UInt8.ofNat (v / 64 % 64 + 128), UInt8.ofNat (v % 64 + 128)] := by
  have hv : v.isValidChar := h
  have hc : (Char.ofNat v).val.toNat = v := by
    have haux : Char.ofNat v = Char.ofNatAux v hv := dif_pos hv
    rw [haux]
    rfl
  simp only [String.utf8EncodeChar]
  generalize (Char.ofNat v).val.toNat = u at hc
  rw [hc]

theorem utf8EncodeChar_one (ha : a.toNat < 0x80) :
    String.utf8EncodeChar (Char.ofNat a.toNat) = [a] := by
  rw [utf8EncodeChar_ofNat (by omega), if_pos (by omega), ofNat_eq rfl]

theorem utf8EncodeChar_two (ha : 0xC2 ≤ a.toNat) (ha' : a.toNat ≤ 0xDF)
    (hb : isContinuation b = true) :
    String.utf8EncodeChar (Char.ofNat ((a.toNat % 32) * 64 + payload b)) = [a, b] := by
  have hb' := isContinuation_iff.1 hb
  unfold payload
  rw [utf8EncodeChar_ofNat (by omega), if_neg (by omega), if_pos (by omega),
    @ofNat_eq a _ (by omega), @ofNat_eq b _ (by omega)]

theorem utf8EncodeChar_three (ha : 0xE0 ≤ a.toNat) (ha' : a.toNat ≤ 0xEF)
    (hb : isSecondOfThree a b = true) (hc : isContinuation c = true) :
    String.utf8EncodeChar
      (Char.ofNat ((a.toNat % 16) * 4096 + payload b * 64 + payload c)) = [a, b, c] := by
  obtain ⟨hb₁, hb₂, hb₃, hb₄⟩ := toNat_of_isSecondOfThree hb
  have hc' := isContinuation_iff.1 hc
  unfold payload
  rw [utf8EncodeChar_ofNat (by omega), if_neg (by omega), if_neg (by omega), if_pos (by omega),
    @ofNat_eq a _ (by omega), @ofNat_eq b _ (by omega), @ofNat_eq c _ (by omega)]

theorem utf8EncodeChar_four (ha : 0xF0 ≤ a.toNat) (ha' : a.toNat ≤ 0xF4)
    (hb : isSecondOfFour a b = true) (hc : isContinuation c = true)
    (hd : isContinuation d = true) :
    String.utf8EncodeChar (Char.ofNat ((a.toNat % 8) * 262144 + payload b * 4096 +
      payload c * 64 + payload d)) = [a, b, c, d] := by
  obtain ⟨hb₁, hb₂, hb₃, hb₄⟩ := toNat_of_isSecondOfFour hb
  have hc' := isContinuation_iff.1 hc
  have hd' := isContinuation_iff.1 hd
  unfold payload
  rw [utf8EncodeChar_ofNat (by omega), if_neg (by omega), if_neg (by omega), if_neg (by omega),
    @ofNat_eq a _ (by omega), @ofNat_eq b _ (by omega), @ofNat_eq c _ (by omega),
    @ofNat_eq d _ (by omega)]

end Lead

theorem encodeChars_cons (c : Char) (cs : List Char) :
    encodeChars (c :: cs) = String.utf8EncodeChar c ++ encodeChars cs := rfl

theorem encodeChars_append (cs ds : List Char) :
    encodeChars (cs ++ ds) = encodeChars cs ++ encodeChars ds := List.flatMap_append

def Part.bytes : Part → Bytes
  | .char c => String.utf8EncodeChar c
  | .broken bs => bs

theorem flatMap_bytes_read (bs : Bytes) : (read bs).flatMap Part.bytes = bs := by
  fun_induction read bs with
  | case1 => rfl
  | case2 a r ha ih =>
    have ha' : a.toNat < 0x80 := UInt8.lt_iff_toNat_lt.1 ha
    rw [List.flatMap_cons, ih, Part.bytes, utf8EncodeChar_one ha']
    rfl
  | case3 a _ ha b r hb ih =>
    simp only [Bool.and_eq_true, decide_eq_true_eq, UInt8.le_iff_toNat_le] at ha
    rw [List.flatMap_cons, ih, Part.bytes, utf8EncodeChar_two ha.1 ha.2 hb]
    rfl
  | case6 a _ _ ha b c r hb hc ih =>
    simp only [Bool.and_eq_true, decide_eq_true_eq, UInt8.le_iff_toNat_le] at ha
    rw [List.flatMap_cons, ih, Part.bytes, utf8EncodeChar_three ha.1 ha.2 hb hc]
    rfl
  | case12 a _ _ _ ha b c d r hb hc hd ih =>
    simp only [Bool.and_eq_true, decide_eq_true_eq, UInt8.le_iff_toNat_le] at ha
    rw [List.flatMap_cons, ih, Part.bytes, utf8EncodeChar_four ha.1 ha.2 hb hc hd]
    rfl
  | _ => simp_all [Part.bytes]

theorem encodeChars_map_toChar {parts : List Part}
    (h : ∀ part ∈ parts, part.isChar = true ∨ part.toChar ≠ '\uFFFD') :
    encodeChars (parts.map Part.toChar) = parts.flatMap Part.bytes := by
  induction parts with
  | nil => rfl
  | cons part parts ih =>
    have hparts := ih fun q hq => h q (List.mem_cons_of_mem part hq)
    rw [List.map_cons, encodeChars_cons, hparts, List.flatMap_cons]
    cases part with
    | char c => rfl
    | broken bs => simp [Part.isChar, Part.toChar] at h

theorem encodeChars_read (bs : Bytes) (h : (read bs).all Part.isChar = true) :
    encodeChars ((read bs).map Part.toChar) = bs := by
  rw [encodeChars_map_toChar fun part hp => .inl (List.all_eq_true.1 h part hp), flatMap_bytes_read]

theorem encode_decodeLossy {bs : Bytes} (h : (decode? bs).isSome = true) :
    encode (decodeLossy bs) = bs := by
  have hall : (read bs).all Part.isChar = true := by
    refine Decidable.not_not.1 fun hn => ?_
    simp [decode?, hn] at h
  rw [encode, decodeLossy, String.toList_ofList, encodeChars_read bs hall]

theorem eq_encode_of_decodeLossy {bs : Bytes} {s : String} (h : decodeLossy bs = s)
    (hs : '\uFFFD' ∉ s.toList) : bs = encode s := by
  subst h
  rw [decodeLossy, String.toList_ofList] at hs
  have hparts := encodeChars_map_toChar fun part hp =>
    .inr fun hc => hs (List.mem_map.2 ⟨part, hp, hc⟩)
  rw [encode, decodeLossy, String.toList_ofList, hparts, flatMap_bytes_read]

theorem decodeLossy_ne_empty {bs : Bytes} (h : bs ≠ []) : decodeLossy bs ≠ "" :=
  fun he => h (eq_encode_of_decodeLossy he (by simp))

theorem utf8EncodeChar_subset_of_mem_decodeLossy {bs : Bytes} {c : Char}
    (h : c ∈ (decodeLossy bs).toList) (hc : c ≠ '\uFFFD') : String.utf8EncodeChar c ⊆ bs := by
  rw [decodeLossy, String.toList_ofList] at h
  obtain ⟨part, hpart, rfl⟩ := List.mem_map.1 h
  cases part with
  | char c =>
    intro b hb
    rw [← flatMap_bytes_read bs]
    exact List.mem_flatMap.2 ⟨_, hpart, hb⟩
  | broken bs => exact absurd rfl hc

section Ascii

variable {a x : UInt8}

theorem not_second_of_ascii (hx : x.toNat < 0x80) : isContinuation x = false ∧
    isSecondOfThree a x = false ∧ isSecondOfFour a x = false := by
  have hcont : isContinuation x = false := by
    refine Bool.eq_false_iff.2 fun h => ?_
    have hle := (isContinuation_iff.1 h).1
    omega
  refine ⟨hcont, Bool.eq_false_iff.2 fun h => ?_, Bool.eq_false_iff.2 fun h => ?_⟩
  · have hle := (toNat_of_isSecondOfThree h).1
    omega
  · have hle := (toNat_of_isSecondOfFour h).1
    omega

theorem read_append_ascii (hx : x.toNat < 0x80) (bs rest : Bytes) :
    read (bs ++ x :: rest) = read bs ++ .char (Char.ofNat x.toNat) :: read rest := by
  have hone := read_one rest hx
  have hcont : isContinuation x = false := (not_second_of_ascii (a := x) hx).1
  have hthree (a : UInt8) : isSecondOfThree a x = false := (not_second_of_ascii hx).2.1
  have hfour (a : UInt8) : isSecondOfFour a x = false := (not_second_of_ascii hx).2.2
  fun_induction read bs with
  | case1 => exact hone
  | case11 | case19 | case20 | case21 =>
    -- A lead byte with too little behind it. How much follows it now decides by which case it is
    -- read, but in none of them over the byte `x`.
    rcases rest with _ | ⟨y, _ | ⟨z, rest⟩⟩ <;>
      simp only [List.cons_append, List.nil_append] at * <;> rw [read.eq_def] <;> simp [*]
  | _ =>
    simp only [List.cons_append, List.nil_append] at *
    rw [read.eq_def]
    simp [*]

theorem decodeLossy_append_ascii (hx : x.toNat < 0x80) (bs rest : Bytes) :
    decodeLossy (bs ++ x :: rest) =
      decodeLossy bs ++ String.ofList [Char.ofNat x.toNat] ++ decodeLossy rest := by
  refine String.toList_injective ?_
  simp [decodeLossy, read_append_ascii hx, Part.toChar]

end Ascii

theorem decodeLossy_encode (s : String) : decodeLossy (encode s) = s := by
  refine String.toList_injective ?_
  simp [decodeLossy, encode, read_encodeChars, Function.comp_def, Part.toChar]

end ResourceManifest.Utf8
