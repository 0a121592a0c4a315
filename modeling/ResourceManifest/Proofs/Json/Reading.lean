import ResourceManifest.Json
import ResourceManifest.Text.Utf8

/-!
A decoder for JSON documents, as RFC 8259 has them: blanks between the parts, every escape in a
string, and nothing before or after the one value. It knows the values of this program, which are
strings, arrays and objects. What is written is read as what it was written from.
-/

set_option autoImplicit false

namespace ResourceManifest.Json

def isBlank (c : Char) : Bool := c = ' ' || c = '\t' || c = '\n' || c = '\r'

def skip (cs : List Char) : List Char := cs.dropWhile isBlank

def hexDigit? (c : Char) : Option Nat :=
  if '0' ≤ c ∧ c ≤ '9' then some (c.toNat - 48)
  else if 'a' ≤ c ∧ c ≤ 'f' then some (c.toNat - 87)
  else if 'A' ≤ c ∧ c ≤ 'F' then some (c.toNat - 55)
  else none

def readUnit : List Char → Option (Nat × List Char)
  | a :: b :: c :: d :: cs => do
    let a ← hexDigit? a
    let b ← hexDigit? b
    let c ← hexDigit? c
    let d ← hexDigit? d
    pure (((a * 16 + b) * 16 + c) * 16 + d, cs)
  | _ => none

def readLow : List Char → Option (Nat × List Char)
  | '\\' :: 'u' :: cs => do
    let (v, rest) ← readUnit cs
    if 0xDC00 ≤ v ∧ v ≤ 0xDFFF then pure (v - 0xDC00, rest) else none
  | _ => none

def readCode (cs : List Char) : Option (Char × List Char) := do
  let (u, rest) ← readUnit cs
  if 0xDC00 ≤ u ∧ u ≤ 0xDFFF then none
  else if 0xD800 ≤ u ∧ u ≤ 0xDBFF then
    let (v, rest) ← readLow rest
    pure (Char.ofNat (0x10000 + (u - 0xD800) * 0x400 + v), rest)
  else pure (Char.ofNat u, rest)

def unescape? (c : Char) : Option Char :=
  if c = '"' ∨ c = '\\' ∨ c = '/' then some c
  else if c = 'b' then some '\x08'
  else if c = 'f' then some '\x0c'
  else if c = 'n' then some '\n'
  else if c = 'r' then some '\r'
  else if c = 't' then some '\t'
  else none

def readChar : List Char → Option (Char × List Char)
  | '\\' :: 'u' :: cs => readCode cs
  | '\\' :: c :: cs => (unescape? c).map fun d => (d, cs)
  | c :: cs => if c = '"' ∨ c = '\\' ∨ c.toNat < 0x20 then none else some (c, cs)
  | [] => none

def readText : Nat → List Char → Option (List Char × List Char)
  | 0, _ => none
  | fuel + 1, cs =>
    match cs with
    | '"' :: rest => some ([], rest)
    | cs => do
      let (c, rest) ← readChar cs
      let (s, rest) ← readText fuel rest
      pure (c :: s, rest)

def readString : List Char → Option (String × List Char)
  | '"' :: cs => do
    let (s, rest) ← readText cs.length cs
    pure (String.ofList s, rest)
  | _ => none

mutual
def readValue : Nat → List Char → Option (Json × List Char)
  | 0, _ => none
  | fuel + 1, cs =>
    match skip cs with
    | '[' :: rest =>
      match skip rest with
      | ']' :: rest => some (.arr [], rest)
      | _ => do
        let (vs, rest) ← readItems fuel rest
        pure (.arr vs, rest)
    | '\x7b' :: rest =>
      match skip rest with
      | '\x7d' :: rest => some (.obj [], rest)
      | _ => do
        let (ms, rest) ← readMembers fuel rest
        pure (.obj ms, rest)
    | cs => do
      let (s, rest) ← readString cs
      pure (.str s, rest)

def readItems : Nat → List Char → Option (List Json × List Char)
  | 0, _ => none
  | fuel + 1, cs => do
    let (v, rest) ← readValue fuel cs
    match skip rest with
    | ',' :: rest =>
      let (vs, rest) ← readItems fuel rest
      pure (v :: vs, rest)
    | ']' :: rest => pure ([v], rest)
    | _ => none

def readMembers : Nat → List Char → Option (List (String × Json) × List Char)
  | 0, _ => none
  | fuel + 1, cs => do
    let (k, rest) ← readString (skip cs)
    match skip rest with
    | ':' :: rest =>
      let (v, rest) ← readValue fuel rest
      match skip rest with
      | ',' :: rest =>
        let (ms, rest) ← readMembers fuel rest
        pure ((k, v) :: ms, rest)
      | '\x7d' :: rest => pure ([(k, v)], rest)
      | _ => none
    | _ => none
end

def read? (s : String) : Option Json :=
  match readValue (s.toList.length + 1) s.toList with
  | some (v, rest) => if skip rest = [] then some v else none
  | none => none

/-- The value of a document as it stands in a file. -/
def decode? (bs : Bytes) : Option Json := (Utf8.decode? bs).bind read?

theorem hexDigit?_digitChar {d : Nat} (h : d < 16) : hexDigit? (Nat.digitChar d) = some d :=
  (by decide : ∀ d < 16, hexDigit? (Nat.digitChar d) = some d) d h

theorem readChar_escape (c : Char) (rest : List Char) :
    readChar (escape c ++ rest) = some (c, rest) := by
  unfold escape
  split
  · next h => rcases h with rfl | rfl <;> rfl
  · next hq =>
    obtain ⟨hquote, hslash⟩ := not_or.1 hq
    repeat' split
    · next h => subst h; rfl
    · next h => subst h; rfl
    · next h => subst h; rfl
    · next h => subst h; rfl
    · next h => subst h; rfl
    · next h =>
      have hhigh := hexDigit?_digitChar (d := c.toNat / 16) (by omega)
      have hlow := hexDigit?_digitChar (d := c.toNat % 16) (by omega)
      have hzero : hexDigit? '0' = some 0 := rfl
      have hval : ((0 * 16 + 0) * 16 + c.toNat / 16) * 16 + c.toNat % 16 = c.toNat := by omega
      have hc : Char.ofNat c.toNat = c := Char.ofNat_toNat c
      simp only [List.cons_append, List.nil_append, readChar, readCode, readUnit, hhigh, hlow,
        hzero, bind, Option.bind, pure, hval]
      rw [if_neg (by omega), if_neg (by omega), hc]
    · next h =>
      rw [List.singleton_append, readChar.eq_def]
      split <;> simp_all

theorem readText_of_readChar {cs rest : List Char} {c : Char} (h : readChar cs = some (c, rest))
    (fuel : Nat) :
    readText (fuel + 1) cs = (readText fuel rest).map fun r => (c :: r.1, r.2) := by
  rw [readText]
  · simp only [h, bind, Option.bind, pure]
    cases readText fuel rest <;> rfl
  · rintro r rfl
    simp [readChar] at h

theorem readText_escape {s : List Char} {fuel : Nat} (rest : List Char) (h : s.length < fuel) :
    readText fuel (s.flatMap escape ++ '"' :: rest) = some (s, rest) := by
  induction s generalizing fuel with
  | nil =>
    obtain ⟨fuel, rfl⟩ := Nat.exists_eq_add_one.2 h
    rfl
  | cons c s ih =>
    rw [List.length_cons] at h
    obtain ⟨fuel, rfl⟩ := Nat.exists_eq_add_one.2 (by omega : 0 < fuel)
    have hc := readChar_escape c (s.flatMap escape ++ '"' :: rest)
    rw [List.flatMap_cons, List.append_assoc, readText_of_readChar hc, ih (by omega)]
    rfl

theorem length_le_flatMap_escape (s : List Char) : s.length ≤ (s.flatMap escape).length := by
  induction s with
  | nil => exact Nat.le_refl 0
  | cons c s ih =>
    have hc : 1 ≤ (escape c).length := by
      unfold escape
      repeat' split
      all_goals simp
    rw [List.flatMap_cons, List.length_append, List.length_cons]
    omega

theorem readString_writeString (s : String) (rest : List Char) :
    readString (writeString s ++ rest) = some (s, rest) := by
  have hw : writeString s ++ rest = '"' :: (s.toList.flatMap escape ++ '"' :: rest) := by
    simp [writeString]
  have hlen := length_le_flatMap_escape s.toList
  have hread : readText (s.toList.flatMap escape ++ '"' :: rest).length
      (s.toList.flatMap escape ++ '"' :: rest) = some (s.toList, rest) := by
    refine readText_escape rest ?_
    rw [List.length_append, List.length_cons]
    omega
  rw [hw, readString, hread]
  simp [bind, Option.bind, pure]

theorem skip_cons {c : Char} (h : isBlank c = false) (cs : List Char) :
    skip (c :: cs) = c :: cs := by simp [skip, h]

theorem write_eq_cons (v : Json) : ∃ c cs, v.write = c :: cs ∧ isBlank c = false ∧ c ≠ ']' := by
  cases v with
  | str s => exact ⟨_, _, rfl, rfl, by decide⟩
  | arr vs =>
    cases vs with
    | nil => exact ⟨'[', [']'], by rw [write], rfl, by decide⟩
    | cons v vs => exact ⟨'[', v.write ++ writeMore vs, by rw [write]; rfl, rfl, by decide⟩
  | obj ms =>
    cases ms with
    | nil => exact ⟨'\x7b', ['\x7d'], by rw [write], rfl, by decide⟩
    | cons m ms =>
      have hw : (obj (m :: ms)).write =
          '\x7b' :: (writeString m.1 ++ ':' :: (m.2.write ++ writeMembers ms)) := by
        rw [write, List.append_assoc, List.cons_append, List.cons_append]
      exact ⟨'\x7b', _, hw, rfl, by decide⟩

theorem length_write_pos (v : Json) : 0 < v.write.length := by
  obtain ⟨c, cs, h, -⟩ := v.write_eq_cons
  simp [h]

@[elab_as_elim]
theorem induct {motive : Json → Prop} (str : ∀ s, motive (.str s))
    (arr : ∀ vs, (∀ v ∈ vs, motive v) → motive (.arr vs))
    (obj : ∀ ms, (∀ m ∈ ms, motive m.2) → motive (.obj ms)) : ∀ v, motive v
  | .str s => str s
  | .arr vs => arr vs fun v _ => induct str arr obj v
  | .obj ms => obj ms fun m _ => induct str arr obj m.2
termination_by v => sizeOf v
decreasing_by
  · have := List.sizeOf_lt_of_mem ‹v ∈ vs›
    simp only [Json.arr.sizeOf_spec]
    omega
  · have := List.sizeOf_lt_of_mem ‹m ∈ ms›
    obtain ⟨k, v⟩ := m
    simp only [Json.obj.sizeOf_spec, Prod.mk.sizeOf_spec] at this ⊢
    omega

def ReadsBack (v : Json) : Prop :=
  ∀ fuel rest, v.write.length ≤ fuel → readValue fuel (v.write ++ rest) = some (v, rest)

theorem readsBack_of_succ {v : Json} (h : ∀ fuel rest, v.write.length ≤ fuel + 1 →
    readValue (fuel + 1) (v.write ++ rest) = some (v, rest)) : v.ReadsBack := by
  intro fuel rest hf
  -- Every reader takes a character off for each unit of fuel, so the length is fuel enough.
  obtain ⟨fuel, rfl⟩ := Nat.exists_eq_add_one.2 (Nat.lt_of_lt_of_le v.length_write_pos hf)
  exact h fuel rest hf

theorem readItems_write {v : Json} {vs : List Json} (h : ∀ u ∈ v :: vs, u.ReadsBack) {fuel : Nat}
    (rest : List Char) (hf : (v.write ++ writeMore vs).length ≤ fuel) :
    readItems fuel (v.write ++ writeMore vs ++ rest) = some (v :: vs, rest) := by
  induction vs generalizing v fuel with
  | nil =>
    rw [List.length_append, writeMore, List.length_singleton] at hf
    obtain ⟨fuel, rfl⟩ := Nat.exists_eq_add_one.2 (by omega : 0 < fuel)
    have hv := h v List.mem_cons_self fuel (']' :: rest) (by omega)
    rw [writeMore, List.append_assoc, List.singleton_append, readItems, hv]
    rfl
  | cons u us ih =>
    rw [List.length_append, writeMore, List.length_append, List.length_cons] at hf
    obtain ⟨fuel, rfl⟩ := Nat.exists_eq_add_one.2 (by omega : 0 < fuel)
    have hv := h v List.mem_cons_self fuel (',' :: (u.write ++ writeMore us ++ rest)) (by omega)
    have hlen : (u.write ++ writeMore us).length ≤ fuel := by
      rw [List.length_append]
      omega
    have hus := ih (fun w hw => h w (List.mem_cons_of_mem v hw)) hlen
    rw [writeMore, List.append_assoc, List.cons_append, List.cons_append, readItems, hv]
    simp only [bind, Option.bind, skip_cons (c := ',') rfl, hus]
    rfl

theorem readMembers_write {k : String} {v : Json} {ms : List (String × Json)}
    (h : ∀ m ∈ (k, v) :: ms, m.2.ReadsBack) {fuel : Nat} (rest : List Char)
    (hf : (v.write ++ writeMembers ms).length ≤ fuel) :
    readMembers fuel (writeString k ++ ':' :: v.write ++ writeMembers ms ++ rest) =
      some ((k, v) :: ms, rest) := by
  have hkey : ∀ (k : String) cs, skip (writeString k ++ cs) = writeString k ++ cs :=
    fun k cs => skip_cons (c := '"') rfl _
  induction ms generalizing k v fuel with
  | nil =>
    rw [List.length_append, writeMembers, List.length_singleton] at hf
    obtain ⟨fuel, rfl⟩ := Nat.exists_eq_add_one.2 (by omega : 0 < fuel)
    have hlen : v.write.length ≤ fuel := by omega
    have hv := h (k, v) List.mem_cons_self fuel ('\x7d' :: rest) hlen
    simp only [writeMembers, List.append_assoc, List.cons_append, List.nil_append, readMembers,
      hkey, readString_writeString, bind, Option.bind, skip_cons (c := ':') rfl, hv]
    rfl
  | cons m ms ih =>
    obtain ⟨k', v'⟩ := m
    rw [List.length_append, writeMembers, List.length_append, List.length_append,
      List.length_cons, List.length_cons] at hf
    obtain ⟨fuel, rfl⟩ := Nat.exists_eq_add_one.2 (by omega : 0 < fuel)
    have hmore : (v'.write ++ writeMembers ms).length ≤ fuel := by
      rw [List.length_append]
      omega
    have hms := ih (fun w hw => h w (List.mem_cons_of_mem (k, v) hw)) hmore
    have hlen : v.write.length ≤ fuel := by omega
    have hv := h (k, v) List.mem_cons_self fuel
      (',' :: (writeString k' ++ ':' :: v'.write ++ writeMembers ms ++ rest)) hlen
    simp only [List.append_assoc, List.cons_append] at hv hms
    simp only [writeMembers, List.append_assoc, List.cons_append, readMembers, hkey,
      readString_writeString, bind, Option.bind, skip_cons (c := ':') rfl, hv,
      skip_cons (c := ',') rfl, hms]
    rfl

theorem readsBack (v : Json) : v.ReadsBack := by
  induction v using induct with
  | str s =>
    refine readsBack_of_succ fun fuel rest _ => ?_
    have hskip : skip (writeString s ++ rest) = writeString s ++ rest := skip_cons (c := '"') rfl _
    have hread := readString_writeString s rest
    rw [write, readValue, hskip]
    change (do let (s, rest) ← readString (writeString s ++ rest); pure (Json.str s, rest)) = _
    rw [hread]
    rfl
  | arr vs ih =>
    refine readsBack_of_succ fun fuel rest hf => ?_
    cases vs with
    | nil =>
      rw [write]
      rfl
    | cons v vs =>
      obtain ⟨c, cs, hc, hblank, hne⟩ := v.write_eq_cons
      have hskip : skip (v.write ++ writeMore vs ++ rest) = c :: (cs ++ writeMore vs ++ rest) := by
        rw [hc]
        exact skip_cons hblank _
      rw [write, List.cons_append, List.length_cons] at hf
      have hitems := readItems_write ih rest (Nat.le_of_succ_le_succ hf)
      rw [write, List.cons_append, List.cons_append, readValue, skip_cons rfl]
      simp only [hskip, hitems]
      split
      · next h => exact absurd (List.cons.inj h).1 hne
      · rfl
  | obj ms ih =>
    refine readsBack_of_succ fun fuel rest hf => ?_
    cases ms with
    | nil =>
      rw [write]
      rfl
    | cons m ms =>
      obtain ⟨k, v⟩ := m
      have hskip : skip (writeString k ++ ':' :: v.write ++ writeMembers ms ++ rest) =
          writeString k ++ ':' :: v.write ++ writeMembers ms ++ rest := skip_cons (c := '"') rfl _
      have hlen : (v.write ++ writeMembers ms).length ≤ fuel := by
        rw [write, List.cons_append, List.cons_append, List.length_cons, List.length_append,
          List.length_append, List.length_cons] at hf
        rw [List.length_append]
        omega
      have hmembers := readMembers_write ih rest hlen
      rw [write, List.cons_append, List.cons_append, List.cons_append, readValue, skip_cons rfl]
      simp only [hskip, hmembers]
      rfl

theorem read?_compact (v : Json) : read? v.compact = some v := by
  have hr := v.readsBack (v.write.length + 1) [] (Nat.le_succ _)
  rw [List.append_nil] at hr
  rw [read?, compact, String.toList_ofList, hr]
  rfl

theorem decode?_encode (v : Json) : decode? (Utf8.encode v.compact) = some v := by
  rw [decode?, Utf8.decode?_encode, Option.bind_some, read?_compact]

example : (read? " [ \"\\ud83d\\ude00\", \"a\\/b\\u000a\" ] ").map compact =
    some "[\"😀\",\"a/b\\n\"]" := by decide +kernel

theorem writeMore_strings (s : String) (ss : List String) :
    writeString s ++ writeMore (ss.map .str) =
      [','].intercalate ((s :: ss).map writeString) ++ [']'] := by
  induction ss generalizing s with
  | nil => simp [writeMore]
  | cons u us ih =>
    have hu : (Json.str u).write = writeString u := by rw [write]
    rw [List.map_cons, writeMore, hu, List.cons_append, ih]
    simp [List.intercalate]

theorem write_strings (ss : List String) :
    (strings ss).write = '[' :: [','].intercalate (ss.map writeString) ++ [']'] := by
  cases ss with
  | nil => rw [strings, List.map_nil, write]; rfl
  | cons s ss =>
    have hs : (Json.str s).write = writeString s := by rw [write]
    rw [strings, List.map_cons, write, hs, List.cons_append, writeMore_strings, List.cons_append]

end ResourceManifest.Json
