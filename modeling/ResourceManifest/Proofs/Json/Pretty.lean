import ResourceManifest.Proofs.Json.Reading

/-!
Documents over indented lines. The line breaks and the blanks that begin a line stand only where
the decoder passes over blanks, so that what is written in this way is read as what it was written
from as well.
-/

set_option autoImplicit false

namespace ResourceManifest.Json

theorem skip_append {gap : List Char} (h : ∀ c ∈ gap, isBlank c = true) (cs : List Char) :
    skip (gap ++ cs) = skip cs := List.dropWhile_append_of_pos h

theorem skip_newLine (level : Nat) (cs : List Char) : skip (newLine level ++ cs) = skip cs := by
  refine skip_append (fun c hc => ?_) cs
  rcases List.mem_cons.1 hc with rfl | hc
  · rfl
  · rw [List.eq_of_mem_replicate hc]
    rfl

theorem readValue_newLine (fuel level : Nat) (cs : List Char) :
    readValue fuel (newLine level ++ cs) = readValue fuel cs := by
  cases fuel with
  | zero => rfl
  | succ fuel => rw [readValue, readValue, skip_newLine]

theorem writeLines_eq_cons (level : Nat) (v : Json) :
    ∃ c cs, v.writeLines level = c :: cs ∧ isBlank c = false ∧ c ≠ ']' := by
  cases v with
  | str s => exact ⟨_, _, rfl, rfl, by decide⟩
  | arr vs =>
    cases vs with
    | nil => exact ⟨'[', [']'], by rw [writeLines], rfl, by decide⟩
    | cons v vs => exact ⟨'[', _, by rw [writeLines]; rfl, rfl, by decide⟩
  | obj ms =>
    cases ms with
    | nil => exact ⟨'\x7b', ['\x7d'], by rw [writeLines], rfl, by decide⟩
    | cons m ms => exact ⟨'\x7b', _, by rw [writeLines]; rfl, rfl, by decide⟩

theorem length_writeLines_pos (level : Nat) (v : Json) : 0 < (v.writeLines level).length := by
  obtain ⟨c, cs, h, -⟩ := v.writeLines_eq_cons level
  simp [h]

/-- What is written over lines for a value is read as that value, at every level of indentation and
whatever follows. -/
def ReadsBackLines (v : Json) : Prop :=
  ∀ level fuel rest, (v.writeLines level).length ≤ fuel →
    readValue fuel (v.writeLines level ++ rest) = some (v, rest)

theorem readsBackLines_of_succ {v : Json} (h : ∀ level fuel rest,
    (v.writeLines level).length ≤ fuel + 1 →
      readValue (fuel + 1) (v.writeLines level ++ rest) = some (v, rest)) : v.ReadsBackLines := by
  intro level fuel rest hf
  obtain ⟨fuel, rfl⟩ :=
    Nat.exists_eq_add_one.2 (Nat.lt_of_lt_of_le (v.length_writeLines_pos level) hf)
  exact h level fuel rest hf

theorem readItems_writeLines {v : Json} {vs : List Json} (h : ∀ u ∈ v :: vs, u.ReadsBackLines)
    (level : Nat) {fuel : Nat} (rest : List Char)
    (hf : (v.writeLines (level + 1) ++ writeMoreLines level vs).length ≤ fuel) :
    readItems fuel (newLine (level + 1) ++ (v.writeLines (level + 1) ++
      (writeMoreLines level vs ++ rest))) = some (v :: vs, rest) := by
  induction vs generalizing v fuel with
  | nil =>
    rw [List.length_append, writeMoreLines, List.length_append, List.length_singleton] at hf
    obtain ⟨fuel, rfl⟩ := Nat.exists_eq_add_one.2 (by omega : 0 < fuel)
    have hv := h v List.mem_cons_self (level + 1) fuel (newLine level ++ ([']'] ++ rest)) (by omega)
    rw [writeMoreLines, List.append_assoc, readItems, readValue_newLine, hv]
    simp only [bind, Option.bind, skip_newLine, List.cons_append, skip_cons (c := ']') rfl]
    rfl
  | cons u us ih =>
    rw [List.length_append, writeMoreLines, List.append_assoc, List.length_append,
      List.length_cons] at hf
    obtain ⟨fuel, rfl⟩ := Nat.exists_eq_add_one.2 (by omega : 0 < fuel)
    have hv := h v List.mem_cons_self (level + 1) fuel
      (',' :: (newLine (level + 1) ++ (u.writeLines (level + 1) ++
        (writeMoreLines level us ++ rest)))) (by omega)
    have hmore : (u.writeLines (level + 1) ++ writeMoreLines level us).length ≤ fuel := by omega
    have hus := ih (fun w hw => h w (List.mem_cons_of_mem v hw)) hmore
    simp only [writeMoreLines, List.append_assoc, List.cons_append, readItems, readValue_newLine, hv,
      bind, Option.bind, skip_cons (c := ',') rfl, hus]
    rfl

theorem readMembers_writeLines {k : String} {v : Json} {ms : List (String × Json)}
    (h : ∀ m ∈ (k, v) :: ms, m.2.ReadsBackLines) (level : Nat) {fuel : Nat} (rest : List Char)
    (hf : (v.writeLines (level + 1) ++ writeMemberLines level ms).length < fuel) :
    readMembers fuel (newLine (level + 1) ++ (writeString k ++ (':' :: ' ' ::
      (v.writeLines (level + 1) ++ (writeMemberLines level ms ++ rest))))) =
      some ((k, v) :: ms, rest) := by
  have hkey : ∀ (k : String) cs, skip (writeString k ++ cs) = writeString k ++ cs :=
    fun k cs => skip_cons (c := '"') rfl _
  have hblank : ∀ fuel cs, readValue fuel (' ' :: cs) = readValue fuel cs := by
    intro fuel cs
    cases fuel with
    | zero => rfl
    | succ fuel => rw [readValue, readValue, show skip (' ' :: cs) = skip cs from rfl]
  induction ms generalizing k v fuel with
  | nil =>
    rw [List.length_append, writeMemberLines, List.length_append, List.length_singleton] at hf
    obtain ⟨fuel, rfl⟩ := Nat.exists_eq_add_one.2 (by omega : 0 < fuel)
    have hlen : (v.writeLines (level + 1)).length ≤ fuel := by omega
    have hv := h (k, v) List.mem_cons_self (level + 1) fuel (newLine level ++ '\x7d' :: rest) hlen
    simp only [writeMemberLines, List.append_assoc, readMembers, skip_newLine, hkey,
      readString_writeString, bind, Option.bind, skip_cons (c := ':') rfl, hblank, List.cons_append,
      List.nil_append, hv, skip_cons (c := '\x7d') rfl]
    rfl
  | cons m ms ih =>
    obtain ⟨k', v'⟩ := m
    rw [List.length_append, writeMemberLines] at hf
    simp only [List.length_append, List.length_cons] at hf
    obtain ⟨fuel, rfl⟩ := Nat.exists_eq_add_one.2 (by omega : 0 < fuel)
    have hmore : (v'.writeLines (level + 1) ++ writeMemberLines level ms).length < fuel := by
      rw [List.length_append]
      omega
    have hms := ih (fun w hw => h w (List.mem_cons_of_mem (k, v) hw)) hmore
    have hlen : (v.writeLines (level + 1)).length ≤ fuel := by omega
    have hv := h (k, v) List.mem_cons_self (level + 1) fuel
      (',' :: (newLine (level + 1) ++ (writeString k' ++ (':' :: ' ' ::
        (v'.writeLines (level + 1) ++ (writeMemberLines level ms ++ rest)))))) hlen
    simp only [writeMemberLines, List.append_assoc, List.cons_append, List.nil_append, readMembers,
      skip_newLine, hkey, readString_writeString, bind, Option.bind, skip_cons (c := ':') rfl,
      hblank, hv, skip_cons (c := ',') rfl, hms]
    rfl

theorem readsBackLines (v : Json) : v.ReadsBackLines := by
  induction v using induct with
  | str s =>
    refine readsBackLines_of_succ fun level fuel rest hf => ?_
    have hw : (Json.str s).writeLines level = (Json.str s).write := by rw [writeLines, write]
    rw [hw] at hf ⊢
    exact (Json.str s).readsBack (fuel + 1) rest hf
  | arr vs ih =>
    refine readsBackLines_of_succ fun level fuel rest hf => ?_
    cases vs with
    | nil =>
      rw [writeLines]
      rfl
    | cons v vs =>
      obtain ⟨c, cs, hc, hblank, hne⟩ := v.writeLines_eq_cons (level + 1)
      have hskip : skip (newLine (level + 1) ++ (v.writeLines (level + 1) ++
          (writeMoreLines level vs ++ rest))) = c :: (cs ++ (writeMoreLines level vs ++ rest)) := by
        rw [skip_newLine, hc]
        exact skip_cons hblank _
      rw [writeLines] at hf ⊢
      simp only [List.cons_append, List.append_assoc, List.length_cons, List.length_append] at hf ⊢
      have hlen : (v.writeLines (level + 1) ++ writeMoreLines level vs).length ≤ fuel := by
        rw [List.length_append]
        omega
      have hitems := readItems_writeLines ih level rest hlen
      rw [readValue, skip_cons rfl]
      simp only [hskip, hitems]
      split
      · next h => exact absurd (List.cons.inj h).1 hne
      · rfl
  | obj ms ih =>
    refine readsBackLines_of_succ fun level fuel rest hf => ?_
    cases ms with
    | nil =>
      rw [writeLines]
      rfl
    | cons m ms =>
      obtain ⟨k, v⟩ := m
      have hskip : ∀ cs, skip (newLine (level + 1) ++ (writeString k ++ cs)) = writeString k ++ cs :=
        fun cs => (skip_newLine _ _).trans (skip_cons (c := '"') rfl _)
      rw [writeLines] at hf ⊢
      simp only [List.cons_append, List.nil_append, List.append_assoc, List.length_cons,
        List.length_append] at hf ⊢
      have hlen : (v.writeLines (level + 1) ++ writeMemberLines level ms).length < fuel := by
        rw [List.length_append]
        omega
      have hmembers := readMembers_writeLines ih level rest hlen
      rw [readValue, skip_cons rfl]
      simp only [hskip, hmembers]
      rfl

theorem read?_pretty (v : Json) : read? v.pretty = some v := by
  have hr := v.readsBackLines 0 ((v.writeLines 0).length + 1) [] (Nat.le_succ _)
  rw [List.append_nil] at hr
  rw [read?, pretty, String.toList_ofList, hr]
  rfl

def EndsFull (cs : List Char) : Prop := ∃ c, cs.getLast? = some c ∧ isBlank c = false

theorem EndsFull.append {cs : List Char} (h : EndsFull cs) (gap : List Char) :
    EndsFull (gap ++ cs) := by
  obtain ⟨c, hc, hblank⟩ := h
  exact ⟨c, by rw [List.getLast?_append, hc, Option.some_or], hblank⟩

theorem endsFull_writeString (s : String) : EndsFull (writeString s) :=
  .append ⟨'"', rfl, rfl⟩ _

theorem endsFull_writeMore (vs : List Json) : EndsFull (writeMore vs) := by
  induction vs with
  | nil => exact ⟨']', by rw [writeMore]; rfl, rfl⟩
  | cons v vs ih =>
    rw [writeMore]
    exact ih.append _

theorem endsFull_writeMembers (ms : List (String × Json)) : EndsFull (writeMembers ms) := by
  induction ms with
  | nil => exact ⟨'\x7d', by rw [writeMembers]; rfl, rfl⟩
  | cons m ms ih =>
    rw [writeMembers]
    exact ih.append _

theorem endsFull_write (v : Json) : EndsFull v.write := by
  cases v with
  | str s =>
    rw [write]
    exact endsFull_writeString s
  | arr vs =>
    cases vs <;> rw [write]
    · exact ⟨']', rfl, rfl⟩
    · exact (endsFull_writeMore _).append _
  | obj ms =>
    cases ms <;> rw [write]
    · exact ⟨'\x7d', rfl, rfl⟩
    · exact (endsFull_writeMembers _).append _

theorem endsFull_writeMoreLines (level : Nat) (vs : List Json) :
    EndsFull (writeMoreLines level vs) := by
  induction vs with
  | nil =>
    rw [writeMoreLines]
    exact .append ⟨']', rfl, rfl⟩ _
  | cons v vs ih =>
    rw [writeMoreLines]
    exact ih.append _

theorem endsFull_writeMemberLines (level : Nat) (ms : List (String × Json)) :
    EndsFull (writeMemberLines level ms) := by
  induction ms with
  | nil =>
    rw [writeMemberLines]
    exact .append ⟨'\x7d', rfl, rfl⟩ _
  | cons m ms ih =>
    rw [writeMemberLines]
    exact ih.append _

theorem endsFull_writeLines (level : Nat) (v : Json) : EndsFull (v.writeLines level) := by
  cases v with
  | str s =>
    rw [writeLines]
    exact endsFull_writeString s
  | arr vs =>
    cases vs <;> rw [writeLines]
    · exact ⟨']', rfl, rfl⟩
    · exact (endsFull_writeMoreLines level _).append _
  | obj ms =>
    cases ms <;> rw [writeLines]
    · exact ⟨'\x7d', rfl, rfl⟩
    · exact (endsFull_writeMemberLines level _).append _

/-- A text that is the one document of a value, with nothing before or behind it. -/
structure IsDocument (text : String) (v : Json) : Prop where
  value : read? text = some v
  first : ∀ c ∈ text.toList.head?, isBlank c = false
  last : ∀ c ∈ text.toList.getLast?, isBlank c = false

theorem isDocument_of {v : Json} {c : Char} {cs : List Char}
    (hv : read? (String.ofList (c :: cs)) = some v) (hc : isBlank c = false)
    (hend : EndsFull (c :: cs)) : IsDocument (String.ofList (c :: cs)) v := by
  obtain ⟨d, hd, hblank⟩ := hend
  refine ⟨hv, ?_, ?_⟩ <;> rw [String.toList_ofList]
  · rintro _ ⟨rfl⟩
    exact hc
  · rintro _ h
    obtain rfl := Option.some.inj (hd.symm.trans h)
    exact hblank

theorem isDocument_compact (v : Json) : IsDocument v.compact v := by
  have hend := v.endsFull_write
  have hv := v.read?_compact
  rw [compact] at hv ⊢
  obtain ⟨c, cs, h, hblank, -⟩ := v.write_eq_cons
  rw [h] at hv hend ⊢
  exact isDocument_of hv hblank hend

theorem isDocument_pretty (v : Json) : IsDocument v.pretty v := by
  have hend := v.endsFull_writeLines 0
  have hv := v.read?_pretty
  rw [pretty] at hv ⊢
  obtain ⟨c, cs, h, hblank, -⟩ := v.writeLines_eq_cons 0
  rw [h] at hv hend ⊢
  exact isDocument_of hv hblank hend

end ResourceManifest.Json
