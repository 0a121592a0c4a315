import Mathlib.Logic.Function.Iterate
import ResourceManifest.Proofs.Extension.Accepted

/-!
How far a list of extensions is normalised. Dots and blanks are taken off once each, so that blanks
which stood behind the dots are left; to normalise again takes them off as well, and in the end
nothing is left to be taken off.
-/

set_option autoImplicit false

namespace ResourceManifest

variable {raw e : String} {raws es : List String}

/-- An extension from which nothing can be taken off. -/
structure IsNormal (e : String) : Prop where
  ne_empty : e ≠ ""
  head : ∀ c ∈ e.toList.head?, c ≠ '.' ∧ isBlank c = false
  last : ∀ c ∈ e.toList.getLast?, isBlank c = false

/-- Behind the dots at its beginning the text has a blank, which is taken for no blank at its
beginning. -/
def HidesBlank (raw : String) : Prop :=
  ∃ (dots : List Char) (c : Char) (rest : List Char), trim raw.toList = dots ++ c :: rest ∧
    dots ≠ [] ∧ (∀ d ∈ dots, d = '.') ∧ isBlank c = true

theorem isBlank_dot : isBlank '.' = false := by decide

namespace LeftOf

theorem ends (h : LeftOf raw e) (hne : e ≠ "") :
    (∀ c ∈ e.toList.head?, c ≠ '.') ∧ ∀ c ∈ e.toList.getLast?, isBlank c = false := by
  obtain ⟨pre, dots, post, -, -, -, -, -, hlast, hhead⟩ := h
  refine ⟨hhead, fun c hc => hlast c ?_⟩
  have he : e.toList ≠ [] := by simpa using hne
  rwa [List.getLast?_append, List.getLast?_eq_some_getLast he, Option.some_or,
    ← List.getLast?_eq_some_getLast he]

theorem sublist (h : LeftOf raw e) : e.toList.Sublist raw.toList := by
  obtain ⟨pre, dots, post, hraw, -⟩ := h
  rw [hraw]
  exact ((List.sublist_append_right dots _).trans (List.sublist_append_right pre _)).trans
    (List.sublist_append_left _ post)

theorem hidesBlank_iff (h : LeftOf raw e) :
    HidesBlank raw ↔ ∃ c ∈ e.toList.head?, isBlank c = true := by
  obtain ⟨pre, dots, post, hraw, hpre, hpost, hdots, hfirst, hlast, hhead⟩ := h
  have htrim : trim raw.toList = dots ++ e.toList :=
    trim_eq_iff.2 ⟨pre, post, hraw, hpre, hpost, hfirst, hlast⟩
  have hdrop : (trim raw.toList).dropWhile (· == '.') = e.toList :=
    dropWhile_eq_iff.2 ⟨dots, htrim, fun c hc => by simpa using hdots c hc,
      fun c hc => by simpa using hhead c hc⟩
  constructor
  · intro hx
    obtain ⟨dots', c, rest, htrim', -, hdots', hc⟩ := hx
    have hcdot : c ≠ '.' := by
      rintro rfl
      cases isBlank_dot.symm.trans hc
    have hrest : (trim raw.toList).dropWhile (· == '.') = c :: rest :=
      dropWhile_eq_iff.2 ⟨dots', htrim', fun d hd => by simpa using hdots' d hd, by simpa⟩
    rw [hdrop] at hrest
    exact ⟨c, by simp [hrest], hc⟩
  · intro hx
    obtain ⟨c, hc, hblank⟩ := hx
    obtain ⟨rest, he⟩ := List.head?_eq_some_iff.1 (Option.mem_def.1 hc)
    refine ⟨dots, c, rest, by rw [htrim, he], ?_, hdots, hblank⟩
    -- Without dots the blank would be the first character of a trimmed text.
    rintro rfl
    have hfalse := hfirst c hc
    rw [hblank] at hfalse
    cases hfalse

end LeftOf

theorem leftOf_self_iff (hne : e ≠ "") : LeftOf e e ↔ IsNormal e := by
  have he : e.toList ≠ [] := by simpa using hne
  constructor
  · intro h
    obtain ⟨hhead, hlast⟩ := h.ends hne
    obtain ⟨pre, dots, post, hraw, -, -, -, hfirst, -⟩ := h
    -- Nothing can have been taken off, as nothing is missing.
    have hlen := congrArg List.length hraw
    simp only [List.length_append] at hlen
    obtain rfl : dots = [] := List.eq_nil_of_length_eq_zero (by omega)
    exact ⟨hne, fun c hc => ⟨hhead c hc, hfirst c hc⟩, hlast⟩
  · intro h
    exact ⟨[], [], [], by simp, by simp, by simp, by simp, fun c hc => (h.head c hc).2, h.last,
      fun c hc => (h.head c hc).1⟩

theorem normalizeExtensions_cons_cases (raw : String) (raws : List String) :
    (∃ e, e ≠ "" ∧ LeftOf raw e ∧
      normalizeExtensions (raw :: raws) = e :: normalizeExtensions raws) ∨
    LeftOf raw "" ∧ normalizeExtensions (raw :: raws) = normalizeExtensions raws := by
  unfold normalizeExtensions
  rw [List.map_cons, List.filterMap_cons]
  cases hn : normalizeExtension raw with
  | nil => exact .inr ⟨normalizeExtension_eq_iff.1 (by simp [hn]), rfl⟩
  | cons c cs =>
    exact .inl ⟨String.ofList (c :: cs), by simp, normalizeExtension_eq_iff.1 (by simp [hn]), rfl⟩

def extent : List String → Nat
  | [] => 0
  | e :: es => e.length + 1 + extent es

theorem normalizeExtensions_eq_or_lt (raws : List String) :
    normalizeExtensions raws = raws ∨ extent (normalizeExtensions raws) < extent raws := by
  induction raws with
  | nil => exact .inl rfl
  | cons raw raws ih =>
    have hle : extent (normalizeExtensions raws) ≤ extent raws := by
      rcases ih with heq | hlt
      · exact Nat.le_of_eq (congrArg extent heq)
      · exact Nat.le_of_lt hlt
    rcases normalizeExtensions_cons_cases raw raws with ⟨e, -, hleft, hcons⟩ | ⟨-, hcons⟩
    · rw [hcons]
      have hlen := hleft.sublist.length_le
      rw [String.length_toList, String.length_toList] at hlen
      simp only [extent] at ih hle ⊢
      by_cases heq : e.length = raw.length
      · obtain rfl : e = raw := String.toList_injective (hleft.sublist.eq_of_length (by simpa))
        rcases ih with hsame | hlt
        · exact .inl (by rw [hsame])
        · exact .inr (by omega)
      · exact .inr (by omega)
    · rw [hcons]
      simp only [extent] at hle ⊢
      exact .inr (by omega)

theorem normalizeExtensions_eq_self_iff :
    normalizeExtensions es = es ↔ ∀ e ∈ es, IsNormal e := by
  induction es with
  | nil => exact ⟨fun _ => by simp, fun _ => rfl⟩
  | cons e es ih =>
    rw [List.forall_mem_cons, ← ih]
    rcases normalizeExtensions_cons_cases e es with ⟨e', hne, hleft, hcons⟩ | ⟨hleft, hcons⟩
    · rw [hcons, List.cons.injEq]
      refine and_congr_left fun _ => ⟨?_, fun hn => ?_⟩
      · rintro rfl
        exact (leftOf_self_iff hne).1 hleft
      · have hself := (leftOf_self_iff hn.ne_empty).2 hn
        exact String.toList_injective ((normalizeExtension_eq_iff.2 hleft).symm.trans
          (normalizeExtension_eq_iff.2 hself))
    · rw [hcons]
      constructor
      · intro h
        -- The list would have got longer.
        rcases normalizeExtensions_eq_or_lt es with heq | hlt
        · exact absurd (h.symm.trans heq) (List.cons_ne_self e es)
        · rw [h] at hlt
          simp only [extent] at hlt
          omega
      · intro h
        have hself := (leftOf_self_iff h.1.ne_empty).2 h.1
        have hempty := (normalizeExtension_eq_iff.2 hleft).symm.trans
          (normalizeExtension_eq_iff.2 hself)
        exact absurd (String.toList_injective hempty).symm h.1.ne_empty

theorem heads_of_normalizeExtensions_iff :
    (∀ e ∈ normalizeExtensions raws, ∀ c ∈ e.toList.head?, isBlank c = false) ↔
      ∀ raw ∈ raws, ¬ HidesBlank raw := by
  constructor
  · intro h raw hraw hhides
    have hleft : LeftOf raw (String.ofList (normalizeExtension raw)) :=
      normalizeExtension_eq_iff.1 (by simp)
    obtain ⟨c, hc, hblank⟩ := hleft.hidesBlank_iff.1 hhides
    have hne : String.ofList (normalizeExtension raw) ≠ "" := by
      intro he
      simp [he] at hc
    have hfalse := h _ (mem_normalizeExtensions_iff.2 ⟨hne, raw, hraw, hleft⟩) c hc
    rw [hblank] at hfalse
    cases hfalse
  · intro h e he c hc
    obtain ⟨-, raw, hraw, hleft⟩ := mem_normalizeExtensions_iff.1 he
    exact Bool.eq_false_iff.2 fun hblank =>
      h raw hraw (hleft.hidesBlank_iff.2 ⟨c, hc, hblank⟩)

theorem exists_iterate_normal (raws : List String) :
    ∃ k, normalizeExtensions (normalizeExtensions^[k] raws) = normalizeExtensions^[k] raws := by
  -- On the extent, which gets smaller as long as something is taken off.
  induction hm : extent raws using Nat.strongRecOn generalizing raws with
  | ind m ih =>
    rcases normalizeExtensions_eq_or_lt raws with heq | hlt
    · exact ⟨0, heq⟩
    · obtain ⟨k, hk⟩ := ih _ (hm ▸ hlt) (normalizeExtensions raws) rfl
      exact ⟨k + 1, hk⟩

/-- Normalised extensions are not empty, begin with no dot and end with no blank. They are normal,
so that to normalise them again changes nothing, exactly if no blank was hidden behind dots. In any
case they are normal when this has been done often enough. -/
theorem normalizeExtensions_normal (raws : List String) :
    (∀ e ∈ normalizeExtensions raws, e ≠ "" ∧ (∀ c ∈ e.toList.head?, c ≠ '.') ∧
      ∀ c ∈ e.toList.getLast?, isBlank c = false) ∧
    ((∀ e ∈ normalizeExtensions raws, ∀ c ∈ e.toList.head?, isBlank c = false) ↔
      ∀ raw ∈ raws, ¬ HidesBlank raw) ∧
    (normalizeExtensions (normalizeExtensions raws) = normalizeExtensions raws ↔
      ∀ raw ∈ raws, ¬ HidesBlank raw) ∧
    ∃ k, ∀ e ∈ normalizeExtensions^[k] raws, IsNormal e := by
  have hends : ∀ e ∈ normalizeExtensions raws, e ≠ "" ∧ (∀ c ∈ e.toList.head?, c ≠ '.') ∧
      ∀ c ∈ e.toList.getLast?, isBlank c = false := by
    intro e he
    obtain ⟨hne, raw, -, hleft⟩ := mem_normalizeExtensions_iff.1 he
    exact ⟨hne, hleft.ends hne⟩
  refine ⟨hends, heads_of_normalizeExtensions_iff, ?_, ?_⟩
  · rw [normalizeExtensions_eq_self_iff, ← heads_of_normalizeExtensions_iff]
    refine forall₂_congr fun e he => ⟨fun hn c hc => (hn.head c hc).2, fun hblank => ?_⟩
    obtain ⟨hne, hhead, hlast⟩ := hends e he
    exact ⟨hne, fun c hc => ⟨hhead c hc, hblank c hc⟩, hlast⟩
  · obtain ⟨k, hk⟩ := exists_iterate_normal raws
    exact ⟨k, normalizeExtensions_eq_self_iff.1 hk⟩

/-- A blank behind a dot is left the first time, and goes the second time. -/
theorem normalizeExtensions_leaves_blank :
    isBlank ' ' = true ∧ normalizeExtensions [". png"] = [" png"] ∧
    normalizeExtensions (normalizeExtensions [". png"]) = ["png"] := by
  decide +kernel

end ResourceManifest
