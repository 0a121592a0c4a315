import ResourceManifest.Text.Blank

set_option autoImplicit false

namespace ResourceManifest

section Dropping

variable {α : Type} {p : α → Bool} {xs ys : List α}

theorem dropWhile_eq_iff : xs.dropWhile p = ys ↔
    ∃ pre, xs = pre ++ ys ∧ (∀ x ∈ pre, p x = true) ∧ ∀ y ∈ ys.head?, p y = false := by
  constructor
  · intro h
    subst h
    refine ⟨xs.takeWhile p, List.takeWhile_append_dropWhile.symm, ?_, ?_⟩
    · exact List.all_eq_true.1 List.all_takeWhile
    · intro y hy
      have hhead := List.head?_dropWhile_not p xs
      rwa [Option.mem_def.1 hy] at hhead
  · intro h
    obtain ⟨pre, rfl, hpre, hhead⟩ := h
    rw [List.dropWhile_append_of_pos hpre]
    cases ys with
    | nil => rfl
    | cons y ys => exact List.dropWhile_cons_of_neg (by simp [hhead y rfl])

theorem dropEndWhile_eq_reverse (p : α → Bool) (xs : List α) :
    dropEndWhile p xs = (xs.reverse.dropWhile p).reverse := by
  induction xs with
  | nil => rfl
  | cons x xs ih =>
    have hcons : dropEndWhile p (x :: xs) =
        if (dropEndWhile p xs).isEmpty && p x then [] else x :: dropEndWhile p xs := rfl
    rw [hcons, ih, List.reverse_cons, List.dropWhile_append]
    cases xs.reverse.dropWhile p with
    | nil => cases hx : p x <;> simp [hx]
    | cons y ys => simp

theorem dropEndWhile_eq_iff : dropEndWhile p xs = ys ↔
    ∃ post, xs = ys ++ post ∧ (∀ x ∈ post, p x = true) ∧ ∀ y ∈ ys.getLast?, p y = false := by
  rw [dropEndWhile_eq_reverse, List.reverse_eq_iff, dropWhile_eq_iff, List.head?_reverse]
  constructor
  · intro h
    obtain ⟨pre, hxs, hpre, hlast⟩ := h
    refine ⟨pre.reverse, ?_, fun x hx => hpre x (List.mem_reverse.1 hx), hlast⟩
    rw [← List.reverse_reverse xs, hxs, List.reverse_append, List.reverse_reverse]
  · intro h
    obtain ⟨post, rfl, hpost, hlast⟩ := h
    exact ⟨post.reverse, List.reverse_append, fun x hx => hpost x (List.mem_reverse.1 hx), hlast⟩

end Dropping

theorem trim_eq_iff {cs ds : List Char} : trim cs = ds ↔
    ∃ pre post, cs = pre ++ ds ++ post ∧ (∀ c ∈ pre, isBlank c = true) ∧
      (∀ c ∈ post, isBlank c = true) ∧ (∀ c ∈ ds.head?, isBlank c = false) ∧
      ∀ c ∈ ds.getLast?, isBlank c = false := by
  unfold trim trimEnd trimStart
  rw [dropEndWhile_eq_iff]
  constructor
  · intro h
    obtain ⟨post, hcs, hpost, hlast⟩ := h
    obtain ⟨pre, rfl, hpre, hhead⟩ := dropWhile_eq_iff.1 hcs
    refine ⟨pre, post, (List.append_assoc _ _ _).symm, hpre, hpost, ?_, hlast⟩
    intro c hc
    refine hhead c ?_
    rw [List.head?_append, Option.mem_def.1 hc]
    rfl
  · intro h
    obtain ⟨pre, post, rfl, hpre, hpost, hhead, hlast⟩ := h
    cases ds with
    | nil =>
      refine ⟨[], dropWhile_eq_iff.2 ⟨pre ++ post, by simp, ?_, by simp⟩, by simp, by simp⟩
      exact fun c hc => (List.mem_append.1 hc).elim (hpre c) (hpost c)
    | cons d ds =>
      refine ⟨post, dropWhile_eq_iff.2 ⟨pre, List.append_assoc _ _ _, hpre, ?_⟩, hpost, hlast⟩
      exact fun c hc => hhead c (by simpa using hc)

end ResourceManifest
