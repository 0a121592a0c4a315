import ResourceManifest.Failure
import ResourceManifest.Proofs.CommandLine.Arrangement

set_option autoImplicit false

namespace ResourceManifest.Arguments

structure Kept (P : Arguments → Prop) : Prop where
  set : ∀ {a b f v}, P a → a.set f v = .ok b → P b
  switch : ∀ {a b f}, P a → a.switch f = .ok b → P b

namespace Parsing

inductive Step (s : Parsing) (w : Bytes) : Parsing → Prop where
  | long {rest : Bytes} {t : Parsing} : shape w = .long rest → s.long rest = .ok t → Step s w t
  | short {cs : List Char} {broken : Bytes} {t : Parsing} : shape w = .short cs broken →
    s.short broken cs = .ok t → Step s w t
  | word {t : Parsing} : shape w = .plain → s.word w = .ok t → Step s w t

variable {P : Arguments → Prop} {s t : Parsing} {f : Flag} {v : Bytes}

theorem given_of_note (h : s.note f = .ok t) : t.given = s.given := by
  unfold note at h
  split at h
  · split at h <;> cases h
    rfl
  · cases h
    rfl

theorem kept_addValue (hP : Kept P) (hs : P s.given) (h : s.addValue f v = .ok t) : P t.given := by
  obtain ⟨s', hn, h⟩ := bind_eq_ok h
  have hs' : P s'.given := by rwa [given_of_note hn]
  split at h
  · next b hb =>
    cases h
    exact hP.set hs' hb
  · cases h

theorem kept_settle (hP : Kept P) (hs : P s.given) (h : s.settle = .ok t) : P t.given := by
  unfold settle at h
  split at h
  · cases h
    exact hs
  · cases h
  · exact kept_addValue (s := { s with pending? := none }) hP hs h

theorem kept_attached (hP : Kept P) (hs : P s.given) (h : s.attached f v = .ok t) : P t.given := by
  obtain ⟨s', hset, h⟩ := bind_eq_ok h
  exact kept_addValue hP (kept_settle hP hs hset) h

theorem kept_flag (hP : Kept P) (hs : P s.given) (h : s.flag f = .ok t) : P t.given := by
  obtain ⟨s', hset, h⟩ := bind_eq_ok h
  have hs' := kept_settle hP hs hset
  split at h
  · cases h
    exact hs'
  · obtain ⟨s'', hn, h⟩ := bind_eq_ok h
    obtain ⟨b, hb, h⟩ := bind_eq_ok h
    cases h
    exact hP.switch (by rwa [given_of_note hn]) hb

theorem kept_long (hP : Kept P) (hs : P s.given) {bs : Bytes} (h : s.long bs = .ok t) :
    P t.given := by
  unfold long at h
  simp only at h
  split at h
  · exact kept_flag hP hs h
  · split at h
    · exact kept_attached hP hs h
    · cases h
  · cases h

theorem kept_short (hP : Kept P) (hs : P s.given) {broken : Bytes} {cs : List Char}
    (h : s.short broken cs = .ok t) : P t.given := by
  induction cs generalizing s with
  | nil =>
    unfold short at h
    split at h
    · cases h
      exact hs
    · cases h
  | cons c r ih =>
    unfold short at h
    split at h
    · cases h
    · split at h
      · split at h
        · exact kept_flag hP hs h
        · split at h
          · exact kept_attached hP hs h
          · exact kept_attached hP hs h
      · obtain ⟨s', hf, h⟩ := bind_eq_ok h
        exact ih (kept_flag hP hs hf) h

theorem kept_word (hs : P s.given) {w : Bytes} (h : s.word w = .ok t) : P t.given := by
  unfold word at h
  split at h
  · cases h
    exact hs
  · cases h

theorem words_cons_cases {w : Bytes} {ws : List Bytes} (h : s.words (w :: ws) = .ok t) :
    (shape w = .dashes ∧ ws = [] ∧ s.settle = .ok t) ∨
      ∃ s', Step s w s' ∧ s'.words ws = .ok t := by
  rw [words.eq_def] at h
  simp only at h
  cases hw : shape w with
  | dashes =>
    rw [hw] at h
    cases ws with
    | nil => exact .inl ⟨rfl, rfl, h⟩
    | cons next ws => cases h
  | long rest =>
    rw [hw] at h
    obtain ⟨s', hl, h⟩ := bind_eq_ok h
    exact .inr ⟨s', .long hw hl, h⟩
  | short cs broken =>
    rw [hw] at h
    obtain ⟨s', hl, h⟩ := bind_eq_ok h
    exact .inr ⟨s', .short hw hl, h⟩
  | plain =>
    rw [hw] at h
    obtain ⟨s', hl, h⟩ := bind_eq_ok h
    exact .inr ⟨s', .word hw hl, h⟩

theorem Step.kept (hP : Kept P) {w : Bytes} (h : Step s w t) (hs : P s.given) : P t.given := by
  cases h with
  | long _ h => exact kept_long hP hs h
  | short _ h => exact kept_short hP hs h
  | word _ h => exact kept_word hs h

theorem kept_words (hP : Kept P) {ws : List Bytes} (hs : P s.given) (h : s.words ws = .ok t) :
    P t.given := by
  induction ws generalizing s with
  | nil => exact kept_settle hP hs (by rwa [words] at h)
  | cons w ws ih =>
    rcases words_cons_cases h with ⟨-, -, h⟩ | ⟨s', hstep, h⟩
    · exact kept_settle hP hs h
    · exact ih (hstep.kept hP hs) h

theorem kept_json : Kept fun a => a.json = true where
  set {a b f v} hs h := by
    cases f <;> simp only [set] at h <;> repeat' split at h
    all_goals first | cases h; exact hs | cases h
  switch {a b f} hs h := by
    cases f <;> cases h <;> first | exact hs | rfl

theorem json_of_flag (h : s.flag .json = .ok t) : t.given.json = true := by
  obtain ⟨s', -, h⟩ := bind_eq_ok h
  obtain ⟨s'', -, h⟩ := bind_eq_ok h
  cases h
  rfl

theorem json_of_mem {ws : List Bytes} (hm : Utf8.encode "--json" ∈ ws) (h : s.words ws = .ok t) :
    t.given.json = true := by
  have hshape : shape (Utf8.encode "--json") = .long (Utf8.encode Flag.json.long) := by decide
  induction ws generalizing s with
  | nil => cases hm
  | cons w ws ih =>
    rcases words_cons_cases h with ⟨hw, rfl, -⟩ | ⟨s', hstep, hrest⟩
    · rw [← List.mem_singleton.1 hm] at hw
      cases hshape.symm.trans hw
    · rcases List.mem_cons.1 hm with rfl | hm
      · suffices hs' : s'.given.json = true from kept_words kept_json hs' hrest
        cases hstep with
        | long hw hl =>
          cases hshape.symm.trans hw
          rw [long_name] at hl
          exact json_of_flag hl
        | short hw _ => cases hshape.symm.trans hw
        | word hw _ => cases hshape.symm.trans hw
      · exact ih hm hrest

end Parsing

theorem json_of_parse {ws : List Bytes} {a : Arguments} (hm : Utf8.encode "--json" ∈ ws)
    (h : parse ws = .ok a) : a.json = true := by
  unfold parse at h
  cases hw : Parsing.words {} ws with
  | error r =>
    rw [hw] at h
    cases h
  | ok t =>
    rw [hw] at h
    cases h
    exact Parsing.json_of_mem hm hw

end ResourceManifest.Arguments
