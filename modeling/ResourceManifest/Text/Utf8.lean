/-!
UTF-8 over lists of bytes. `read` splits any byte string into characters and maximal
ill-formed parts; strict and lossy decoding are two readings of that one list. What has been
encoded is read as the characters it was made of.
-/

set_option autoImplicit false

namespace ResourceManifest

abbrev Bytes := List UInt8

namespace Utf8

def isContinuation (b : UInt8) : Bool := 0x80 ≤ b && b ≤ 0xBF

/-- A second byte that keeps a three-byte form shortest and out of the surrogates. -/
def isSecondOfThree (lead b : UInt8) : Bool :=
  if lead = 0xE0 then 0xA0 ≤ b && b ≤ 0xBF
  else if lead = 0xED then 0x80 ≤ b && b ≤ 0x9F
  else isContinuation b

def isSecondOfFour (lead b : UInt8) : Bool :=
  if lead = 0xF0 then 0x90 ≤ b && b ≤ 0xBF
  else if lead = 0xF4 then 0x80 ≤ b && b ≤ 0x8F
  else isContinuation b

def payload (b : UInt8) : Nat := b.toNat % 64

/-- A part of a byte string: a character, or the bytes of a maximal ill-formed part. -/
inductive Part where
  | char : Char → Part
  | broken : Bytes → Part
  deriving DecidableEq, Repr

def read : Bytes → List Part
  | [] => []
  | a :: r =>
    if a < 0x80 then .char (Char.ofNat a.toNat) :: read r
    else if 0xC2 ≤ a && a ≤ 0xDF then
      match r with
      | b :: r₂ =>
        if isContinuation b then
          .char (Char.ofNat ((a.toNat % 32) * 64 + payload b)) :: read r₂
        else .broken [a] :: read (b :: r₂)
      | [] => [.broken [a]]
    else if 0xE0 ≤ a && a ≤ 0xEF then
      match r with
      | b :: c :: r₃ =>
        if isSecondOfThree a b then
          if isContinuation c then
            .char (Char.ofNat ((a.toNat % 16) * 4096 + payload b * 64 + payload c)) :: read r₃
          else .broken [a, b] :: read (c :: r₃)
        else .broken [a] :: read (b :: c :: r₃)
      | [b] => if isSecondOfThree a b then [.broken [a, b]] else .broken [a] :: read [b]
      | [] => [.broken [a]]
    else if 0xF0 ≤ a && a ≤ 0xF4 then
      match r with
      | b :: c :: d :: r₄ =>
        if isSecondOfFour a b then
          if isContinuation c then
            if isContinuation d then
              .char (Char.ofNat ((a.toNat % 8) * 262144 + payload b * 4096 + payload c * 64 +
                payload d)) :: read r₄
            else .broken [a, b, c] :: read (d :: r₄)
          else .broken [a, b] :: read (c :: d :: r₄)
        else .broken [a] :: read (b :: c :: d :: r₄)
      | [b, c] =>
        if isSecondOfFour a b then
          if isContinuation c then [.broken [a, b, c]] else .broken [a, b] :: read [c]
        else .broken [a] :: read [b, c]
      | [b] => if isSecondOfFour a b then [.broken [a, b]] else .broken [a] :: read [b]
      | [] => [.broken [a]]
    else .broken [a] :: read r
  termination_by bs => bs.length

def Part.toChar : Part → Char
  | .char c => c
  | .broken _ => '\uFFFD'

def Part.isChar : Part → Bool
  | .char _ => true
  | .broken _ => false

/-- Reads every byte string; each ill-formed part becomes one U+FFFD. -/
def decodeLossy (bs : Bytes) : String := String.ofList ((read bs).map Part.toChar)

/-- Reads exactly the well-formed byte strings. -/
def decode? (bs : Bytes) : Option String :=
  let parts := read bs
  if parts.all Part.isChar then some (String.ofList (parts.map Part.toChar)) else none

def encodeChars (cs : List Char) : Bytes := cs.flatMap String.utf8EncodeChar

def encode (s : String) : Bytes := encodeChars s.toList

/-- The characters in front of the first ill-formed part, and the bytes from there on. -/
def leadingChars (bs : Bytes) : List Char × Bytes :=
  let cs := ((read bs).takeWhile Part.isChar).map Part.toChar
  (cs, bs.drop (encodeChars cs).length)

theorem toNat_ofNat {m : Nat} (h : m < 256) : (UInt8.ofNat m).toNat = m :=
  UInt8.toNat_ofNat_of_lt' h

theorem isContinuation_iff {b : UInt8} :
    isContinuation b = true ↔ 0x80 ≤ b.toNat ∧ b.toNat ≤ 0xBF := by
  simp [isContinuation, UInt8.le_iff_toNat_le]

theorem isContinuation_ofNat (m : Nat) : isContinuation (UInt8.ofNat (m % 64 + 128)) = true := by
  rw [isContinuation_iff, toNat_ofNat (by omega)]
  omega

theorem payload_ofNat (m : Nat) : payload (UInt8.ofNat (m % 64 + 128)) = m % 64 := by
  rw [payload, toNat_ofNat (by omega)]
  omega

theorem read_one {a : UInt8} (r : Bytes) (ha : a.toNat < 0x80) :
    read (a :: r) = .char (Char.ofNat a.toNat) :: read r := by
  have h : a < 0x80 := UInt8.lt_iff_toNat_lt.2 ha
  rw [read.eq_def]
  simp only [h, if_true]

theorem read_two {a b : UInt8} (r : Bytes) (ha : 0xC2 ≤ a.toNat) (ha' : a.toNat ≤ 0xDF)
    (hb : isContinuation b = true) :
    read (a :: b :: r) = .char (Char.ofNat ((a.toNat % 32) * 64 + payload b)) :: read r := by
  have h₁ : ¬ a < 0x80 := by
    simp [UInt8.lt_iff_toNat_lt]
    omega
  have h₂ : (0xC2 ≤ a && a ≤ 0xDF) = true := by simp [UInt8.le_iff_toNat_le, ha, ha']
  rw [read, if_neg h₁, if_pos h₂]
  simp only [hb, if_true]

theorem read_three {a b c : UInt8} (r : Bytes) (ha : 0xE0 ≤ a.toNat) (ha' : a.toNat ≤ 0xEF)
    (hb : isSecondOfThree a b = true) (hc : isContinuation c = true) :
    read (a :: b :: c :: r) =
      .char (Char.ofNat ((a.toNat % 16) * 4096 + payload b * 64 + payload c)) :: read r := by
  have h₁ : ¬ a < 0x80 := by
    simp [UInt8.lt_iff_toNat_lt]
    omega
  have h₂ : ¬ (0xC2 ≤ a && a ≤ 0xDF) = true := by
    simp [UInt8.le_iff_toNat_le]
    omega
  have h₃ : (0xE0 ≤ a && a ≤ 0xEF) = true := by simp [UInt8.le_iff_toNat_le, ha, ha']
  rw [read, if_neg h₁, if_neg h₂, if_pos h₃]
  simp only [hb, hc, if_true]

theorem read_four {a b c d : UInt8} (r : Bytes) (ha : 0xF0 ≤ a.toNat) (ha' : a.toNat ≤ 0xF4)
    (hb : isSecondOfFour a b = true) (hc : isContinuation c = true)
    (hd : isContinuation d = true) :
    read (a :: b :: c :: d :: r) =
      .char (Char.ofNat ((a.toNat % 8) * 262144 + payload b * 4096 + payload c * 64 +
        payload d)) :: read r := by
  have h₁ : ¬ a < 0x80 := by
    simp [UInt8.lt_iff_toNat_lt]
    omega
  have h₂ : ¬ (0xC2 ≤ a && a ≤ 0xDF) = true := by
    simp [UInt8.le_iff_toNat_le]
    omega
  have h₃ : ¬ (0xE0 ≤ a && a ≤ 0xEF) = true := by
    simp [UInt8.le_iff_toNat_le]
    omega
  have h₄ : (0xF0 ≤ a && a ≤ 0xF4) = true := by simp [UInt8.le_iff_toNat_le, ha, ha']
  rw [read, if_neg h₁, if_neg h₂, if_neg h₃, if_pos h₄]
  simp only [hb, hc, hd, if_true]

theorem isSecondOfThree_of_toNat {a b : UInt8} (hb : 0x80 ≤ b.toNat) (hb' : b.toNat ≤ 0xBF)
    (h₀ : a.toNat = 0xE0 → 0xA0 ≤ b.toNat) (h₁ : a.toNat = 0xED → b.toNat ≤ 0x9F) :
    isSecondOfThree a b = true := by
  unfold isSecondOfThree
  split
  · next h => simp [UInt8.le_iff_toNat_le, h₀ (h ▸ rfl), hb']
  · split
    · next h => simp [UInt8.le_iff_toNat_le, h₁ (h ▸ rfl), hb]
    · exact isContinuation_iff.2 ⟨hb, hb'⟩

theorem isSecondOfFour_of_toNat {a b : UInt8} (hb : 0x80 ≤ b.toNat) (hb' : b.toNat ≤ 0xBF)
    (h₀ : a.toNat = 0xF0 → 0x90 ≤ b.toNat) (h₁ : a.toNat = 0xF4 → b.toNat ≤ 0x8F) :
    isSecondOfFour a b = true := by
  unfold isSecondOfFour
  split
  · next h => simp [UInt8.le_iff_toNat_le, h₀ (h ▸ rfl), hb']
  · split
    · next h => simp [UInt8.le_iff_toNat_le, h₁ (h ▸ rfl), hb]
    · exact isContinuation_iff.2 ⟨hb, hb'⟩

theorem read_utf8EncodeChar_append (c : Char) (r : Bytes) :
    read (String.utf8EncodeChar c ++ r) = .char c :: read r := by
  have hv : c.val.toNat < 0xD800 ∨ 0xDFFF < c.val.toNat ∧ c.val.toNat < 0x110000 := c.valid
  have hc : Char.ofNat c.val.toNat = c := Char.ofNat_toNat c
  simp only [String.utf8EncodeChar]
  generalize c.val.toNat = v at hv hc
  split
  · have ha : (UInt8.ofNat v).toNat = v := toNat_ofNat (by omega)
    rw [List.singleton_append, read_one r (by omega), ha, hc]
  · split
    · have ha : (UInt8.ofNat (v / 64 % 32 + 192)).toNat = v / 64 % 32 + 192 :=
        toNat_ofNat (by omega)
      simp only [List.cons_append, List.nil_append]
      rw [read_two r (by omega) (by omega) (isContinuation_ofNat v), ha, payload_ofNat,
        show (v / 64 % 32 + 192) % 32 * 64 + v % 64 = v by omega, hc]
    · split
      · have ha : (UInt8.ofNat (v / 4096 % 16 + 224)).toNat = v / 4096 % 16 + 224 :=
          toNat_ofNat (by omega)
        have hb : (UInt8.ofNat (v / 64 % 64 + 128)).toNat = v / 64 % 64 + 128 :=
          toNat_ofNat (by omega)
        have hs := isSecondOfThree_of_toNat (a := UInt8.ofNat (v / 4096 % 16 + 224))
          (b := UInt8.ofNat (v / 64 % 64 + 128)) (by omega) (by omega) (by omega) (by omega)
        simp only [List.cons_append, List.nil_append]
        rw [read_three r (by omega) (by omega) hs (isContinuation_ofNat v), ha, payload_ofNat,
          payload_ofNat, show (v / 4096 % 16 + 224) % 16 * 4096 + v / 64 % 64 * 64 + v % 64 = v by
            omega, hc]
      · have ha : (UInt8.ofNat (v / 262144 % 8 + 240)).toNat = v / 262144 % 8 + 240 :=
          toNat_ofNat (by omega)
        have hb : (UInt8.ofNat (v / 4096 % 64 + 128)).toNat = v / 4096 % 64 + 128 :=
          toNat_ofNat (by omega)
        have hs := isSecondOfFour_of_toNat (a := UInt8.ofNat (v / 262144 % 8 + 240))
          (b := UInt8.ofNat (v / 4096 % 64 + 128)) (by omega) (by omega) (by omega) (by omega)
        simp only [List.cons_append, List.nil_append]
        rw [read_four r (by omega) (by omega) hs (isContinuation_ofNat _) (isContinuation_ofNat v),
          ha, payload_ofNat, payload_ofNat, payload_ofNat,
          show (v / 262144 % 8 + 240) % 8 * 262144 + v / 4096 % 64 * 4096 + v / 64 % 64 * 64 +
            v % 64 = v by omega, hc]

theorem read_encodeChars (cs : List Char) : read (encodeChars cs) = cs.map .char := by
  induction cs with
  | nil => simp [encodeChars, read]
  | cons c cs ih =>
    have he : encodeChars (c :: cs) = String.utf8EncodeChar c ++ encodeChars cs := rfl
    rw [he, read_utf8EncodeChar_append, ih, List.map_cons]

theorem encodeChars_of_ascii {cs : List Char} (h : ∀ c ∈ cs, c.toNat < 0x80) :
    encodeChars cs = cs.map fun c => UInt8.ofNat c.toNat := by
  induction cs with
  | nil => rfl
  | cons c cs ih =>
    have hc : c.val.toNat ≤ 127 := Nat.le_of_lt_succ (h c List.mem_cons_self)
    have he : String.utf8EncodeChar c = [UInt8.ofNat c.toNat] := if_pos hc
    have hr := ih fun d hd => h d (List.mem_cons_of_mem c hd)
    rw [List.map_cons, ← hr, encodeChars, List.flatMap_cons, he]
    rfl

theorem encodeChars_injective {cs ds : List Char} (h : encodeChars cs = encodeChars ds) :
    cs = ds := by
  have hr := congrArg read h
  rw [read_encodeChars, read_encodeChars] at hr
  exact (List.map_inj_right fun _ _ => Part.char.inj).1 hr

theorem decode?_encode (s : String) : decode? (encode s) = some s := by
  have hall : (s.toList.map Part.char).all Part.isChar = true := by simp [Part.isChar]
  have hmap : (s.toList.map Part.char).map Part.toChar = s.toList := by
    simp [Function.comp_def, Part.toChar]
  simp only [decode?, encode, read_encodeChars, hall, if_true, hmap, String.ofList_toList]

end Utf8

end ResourceManifest
