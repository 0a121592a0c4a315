/-!
Cutting a list in two: behind a given beginning, or at the last occurrence of an item. Both are
pinned down by an equivalence: a cut is given exactly where the list is so made up.
-/

set_option autoImplicit false

namespace ResourceManifest

variable {α : Type} [DecidableEq α]

def after? : List α → List α → Option (List α)
  | [], xs => some xs
  | p :: ps, x :: xs => if p = x then after? ps xs else none
  | _ :: _, [] => none

theorem after?_eq_some_iff {pre xs rest : List α} :
    after? pre xs = some rest ↔ xs = pre ++ rest := by
  induction pre generalizing xs with
  | nil => simp [after?]
  | cons p ps ih =>
    cases xs with
    | nil => simp [after?]
    | cons x xs =>
      by_cases h : p = x
      · simp [after?, h, ih]
      · simp [after?, h, Ne.symm h]

theorem after?_append (pre mid xs : List α) :
    after? (pre ++ mid) xs = (after? pre xs).bind (after? mid) := by
  induction pre generalizing xs with
  | nil => rfl
  | cons p ps ih =>
    cases xs with
    | nil => rfl
    | cons x xs =>
      by_cases h : p = x
      · simp [after?, h, ih]
      · simp [after?, h]

def splitLast (x : α) : List α → Option (List α × List α)
  | [] => none
  | a :: r =>
    match splitLast x r with
    | some (s, e) => some (a :: s, e)
    | none => if a = x then some ([], r) else none

theorem splitLast_eq_none_iff {x : α} {l : List α} : splitLast x l = none ↔ x ∉ l := by
  induction l with
  | nil => simp [splitLast]
  | cons a r ih =>
    cases h : splitLast x r with
    | some p =>
      have hm : x ∈ r := Decidable.not_not.1 fun hn => by simp [ih.2 hn] at h
      simp [splitLast, h, hm]
    | none => simp [splitLast, h, ih.1 h, eq_comm]

theorem splitLast_append_cons {x : α} {s e : List α} (h : x ∉ e) :
    splitLast x (s ++ x :: e) = some (s, e) := by
  induction s with
  | nil => simp [splitLast, splitLast_eq_none_iff.2 h]
  | cons a s ih => simp [splitLast, ih]

theorem splitLast_eq_some_iff {x : α} {l s e : List α} :
    splitLast x l = some (s, e) ↔ l = s ++ x :: e ∧ x ∉ e := by
  refine ⟨fun h => ?_, fun ⟨hl, he⟩ => hl ▸ splitLast_append_cons he⟩
  induction l generalizing s with
  | nil => simp [splitLast] at h
  | cons a r ih =>
    cases hr : splitLast x r with
    | some p =>
      obtain ⟨s', e'⟩ := p
      simp only [splitLast, hr, Option.some.injEq, Prod.mk.injEq] at h
      obtain ⟨rfl, rfl⟩ := h
      obtain ⟨hl, he⟩ := ih hr
      exact ⟨by simp [hl], he⟩
    | none =>
      simp only [splitLast, hr] at h
      split at h
      · next hx =>
        obtain ⟨rfl, rfl⟩ := by simpa using h
        exact ⟨by simp [hx], splitLast_eq_none_iff.1 hr⟩
      · simp at h

end ResourceManifest
