import Mathlib.Data.List.Forall2
import ResourceManifest.Ignore.Guard
import ResourceManifest.Proofs.Text.Blank

set_option autoImplicit false

namespace ResourceManifest

def Stricter (v v' : Option Verdict) : Prop := v' = some .skip ∨ v' = v

namespace Stricter

variable {u u' v v' : Option Verdict}

theorem or (hu : Stricter u u') (hv : Stricter v v') : Stricter (u.or v) (u'.or v') := by
  rcases hu with rfl | rfl
  · exact .inl rfl
  · cases u' with
    | some verdict => exact .inr rfl
    | none => exact hv

theorem findSome? {α β : Type} {f : α → Option Verdict} {g : β → Option Verdict} {xs : List α}
    {ys : List β} (h : List.Forall₂ (fun x y => Stricter (f x) (g y)) xs ys) :
    Stricter (xs.findSome? f) (ys.findSome? g) := by
  induction h with
  | nil => exact .inr rfl
  | @cons x y xs ys hxy _ ih =>
    rw [List.findSome?_cons, List.findSome?_cons]
    rcases hxy with hskip | hsame
    · exact .inl (by rw [hskip])
    · rw [hsame]
      cases f x with
      | some verdict => exact .inr rfl
      | none => exact ih

end Stricter

namespace Rule

theorem verdict_frontMarks {cs : List Char} (h : cs.head? ≠ some '!') :
    (frontMarks cs).verdict = .skip := by
  unfold frontMarks
  split <;> simp_all

theorem verdict_endMarks (m : Marks) : (endMarks m).verdict = m.verdict := by
  unfold endMarks
  split <;> rfl

theorem head?_withoutBlanks {line : List Char} {c : Char} (h : c ∈ (withoutBlanks line).head?) :
    c ∈ line.head? := by
  unfold withoutBlanks at h
  split at h
  · exact h
  · obtain ⟨blanks, hline, -⟩ := dropEndWhile_eq_iff.1 (rfl : trimEnd line = trimEnd line)
    rw [hline]
    exact List.mem_head?_append_of_mem_head? h

theorem verdict_of_parse? {line : String} {r : Rule} (h : parse? line = .ok (some r))
    (hmark : line.toList.head? ≠ some '!') : r.verdict = .skip := by
  have hverdict : (endMarks (frontMarks (withoutBlanks line.toList))).verdict = .skip := by
    rw [verdict_endMarks]
    exact verdict_frontMarks fun hc => hmark (head?_withoutBlanks hc)
  simp only [parse?, bind, Except.bind, pure, Except.pure] at h
  split at h
  · cases h
  · split at h
    · cases h
    · split at h
      · cases h
      · cases h
        exact hverdict

end Rule

section Lines

variable {c x : Bytes}

theorem exists_byteLines_eq_cons (hne : c ≠ []) : ∃ l ls, byteLines c = l :: ls := by
  cases c with
  | nil => exact absurd rfl hne
  | cons b r =>
    unfold byteLines
    split
    · exact ⟨_, _, rfl⟩
    · split
      · split
        · exact ⟨_, _, rfl⟩
        · split <;> exact ⟨_, _, rfl⟩
      · exact ⟨_, _, rfl⟩

theorem byteLines_feed (c : Bytes) : byteLines (0x0A :: c) = [] :: byteLines c := by
  rw [byteLines, if_pos rfl]

/-- A byte that ends no line stands at the beginning of the first of those that follow, unless it
is a carriage return before a line feed. -/
theorem byteLines_cons {b : UInt8} {l : Bytes} {ls : List Bytes} (hb : b ≠ 0x0A)
    (hc : byteLines c = l :: ls) : byteLines (b :: c) =
      if b = 0x0D ∧ c.head? = some 0x0A then l :: ls else (b :: l) :: ls := by
  have hne : c ≠ [] := by
    rintro rfl
    cases hc
  rw [byteLines, if_neg hb, hc]
  simp only [hne, if_false]

theorem byteLines_of_notMem (hne : x ≠ []) (hx : 0x0A ∉ x) : byteLines x = [x] := by
  induction x with
  | nil => exact absurd rfl hne
  | cons b r ih =>
    obtain ⟨hb, hr⟩ := not_or.1 (mt List.mem_cons.2 hx)
    cases r with
    | nil => simp [byteLines, Ne.symm hb]
    | cons a r =>
      have ha : a ≠ 0x0A := fun h => hr (by simp [h])
      rw [byteLines_cons (Ne.symm hb) (ih (by simp) hr)]
      simp [ha]

theorem byteLines_append_feed (c x : Bytes) :
    byteLines (c ++ 0x0A :: x) = byteLines (c ++ [0x0A]) ++ byteLines x := by
  induction c with
  | nil => rfl
  | cons b c ih =>
    rw [List.cons_append, List.cons_append]
    by_cases hb : b = 0x0A
    · rw [hb, byteLines_feed, byteLines_feed, ih, List.cons_append]
    · obtain ⟨l, ls, hl⟩ := exists_byteLines_eq_cons (c := c ++ [0x0A]) (by simp)
      have hl' : byteLines (c ++ 0x0A :: x) = l :: (ls ++ byteLines x) := by
        rw [ih, hl, List.cons_append]
      have hhead : (c ++ 0x0A :: x).head? = (c ++ [0x0A]).head? := by cases c <;> rfl
      rw [byteLines_cons hb hl, byteLines_cons hb hl', hhead]
      split <;> rfl

theorem byteLines_append_singleton (hne : c ≠ []) (hfeed : c.getLast? ≠ some 0x0A)
    (hreturn : c.getLast? ≠ some 0x0D) : byteLines (c ++ [0x0A]) = byteLines c := by
  induction c with
  | nil => exact absurd rfl hne
  | cons b c ih =>
    rw [List.cons_append]
    cases c with
    | nil =>
      have hb : b ≠ 0x0A := by simpa using hfeed
      have hr : b ≠ 0x0D := by simpa using hreturn
      simp [byteLines, hb, hr]
    | cons a c =>
      rw [List.getLast?_cons_cons] at hfeed hreturn
      have hlines := ih (by simp) hfeed hreturn
      by_cases hb : b = 0x0A
      · rw [hb, byteLines_feed, byteLines_feed, hlines]
      · obtain ⟨l, ls, hl⟩ := exists_byteLines_eq_cons (c := a :: c) (by simp)
        rw [byteLines_cons hb hl, byteLines_cons hb (hlines.trans hl)]
        rfl

/-- What a file holds after a line has been appended. The line before it is ended, unless it has
been already, and so is the line itself. -/
def appendLine (c x : Bytes) : Bytes :=
  (if c = [] ∨ c.getLast? = some 0x0A then c else c ++ [0x0A]) ++ x ++ [0x0A]

theorem byteLines_appendLine (hreturn : c.getLast? ≠ some 0x0D) (hx : x ≠ []) (hfeed : 0x0A ∉ x)
    (hend : x.getLast? ≠ some 0x0D) : byteLines (appendLine c x) = byteLines c ++ [x] := by
  have hlast : x.getLast? ≠ some 0x0A := fun h => hfeed (List.mem_of_getLast? h)
  have hline : byteLines (x ++ [0x0A]) = [x] := by
    rw [byteLines_append_singleton hx hlast hend, byteLines_of_notMem hx hfeed]
  rw [appendLine, List.append_assoc]
  split
  · next hc =>
    rcases hc with rfl | hc
    · exact hline
    · obtain ⟨d, rfl⟩ := List.getLast?_eq_some_iff.1 hc
      rw [List.append_assoc, List.singleton_append, byteLines_append_feed, hline]
  · next hc =>
    obtain ⟨hne, hnofeed⟩ := not_or.1 hc
    rw [List.append_assoc, List.singleton_append, byteLines_append_feed, hline,
      byteLines_append_singleton hne hnofeed hreturn]

end Lines

namespace RuleFile

structure AddsSkips (f f' : RuleFile) : Prop where
  root : f'.root = f.root
  rules : ∃ added, f'.rules = f.rules ++ added ∧ ∀ r ∈ added, r.verdict = .skip

theorem AddsSkips.refl (f : RuleFile) : AddsSkips f f :=
  ⟨rfl, [], by simp, by simp⟩

theorem AddsSkips.verdict? {f f' : RuleFile} (h : AddsSkips f f') (path : Bytes) (isDir : Bool) :
    Stricter (f.verdict? path isDir) (f'.verdict? path isDir) := by
  obtain ⟨added, hrules, hskip⟩ := h.rules
  have hstrip : f'.strip path = f.strip path := by simp only [strip, h.root]
  simp only [RuleFile.verdict?, hstrip, hrules, List.reverse_append, List.find?_append]
  cases hfind : added.reverse.find? fun r => r.applies (f.strip path) isDir with
  | none => exact .inr rfl
  | some r =>
    have hr := hskip r (List.mem_reverse.1 (List.mem_of_find?_eq_some hfind))
    exact .inl (congrArg some hr)

/-- A line behind all others, which begins with no exclamation mark as it is read, adds nothing to
the rules but one that excludes, if any. -/
theorem rules_readLines_concat (file : Path) (n : Nat) (ls : List Bytes) {line : String}
    (hmark : (if n + ls.length = 1 then withoutOrderMarks line else line).toList.head? ≠
      some '!') :
    ∃ added, (readLines file n (ls ++ [Utf8.encode line])).rules =
      (readLines file n ls).rules ++ added ∧ ∀ r ∈ added, r.verdict = .skip := by
  induction ls generalizing n with
  | nil =>
    simp only [List.length_nil, Nat.add_zero] at hmark
    simp only [List.nil_append, readLines, Utf8.decode?_encode]
    cases hp : Rule.parse? (if n = 1 then withoutOrderMarks line else line) with
    | error p => exact ⟨[], rfl, by simp⟩
    | ok rule =>
      cases rule with
      | none => exact ⟨[], rfl, by simp⟩
      | some r => exact ⟨[r], rfl, by simpa using Rule.verdict_of_parse? hp hmark⟩
  | cons l ls ih =>
    rw [List.length_cons, Nat.add_comm ls.length, ← Nat.add_assoc] at hmark
    obtain ⟨added, hrules, hskip⟩ := ih (n + 1) hmark
    rw [List.cons_append]
    unfold readLines
    cases Utf8.decode? l with
    | none => exact ⟨[], rfl, by simp⟩
    | some text =>
      simp only
      cases Rule.parse? (if n = 1 then withoutOrderMarks text else text) with
      | error p => exact ⟨added, hrules, hskip⟩
      | ok rule =>
        cases rule with
        | none => exact ⟨added, hrules, hskip⟩
        | some r => exact ⟨added, by simp [hrules], hskip⟩

end RuleFile

/-- In each of its files a directory has the same rules, or more of them that exclude. -/
def IgnoreLevel.AddsSkips (level level' : IgnoreLevel) : Prop :=
  ∀ k, (level.rules k).AddsSkips (level'.rules k)

namespace IgnoreState

structure AddsSkips (s s' : IgnoreState) : Prop where
  root : s'.root = s.root
  base : s'.base = s.base
  walked : List.Forall₂ IgnoreLevel.AddsSkips s.walked s'.walked
  around : List.Forall₂ IgnoreLevel.AddsSkips s.around s'.around
  everywhere : s.everywhere.AddsSkips s'.everywhere

theorem verdictOf?_of_addsSkips {levels levels' : List IgnoreLevel}
    (h : List.Forall₂ IgnoreLevel.AddsSkips levels levels') (k : IgnoreKind) (path : Bytes)
    (isDir : Bool) :
    Stricter (verdictOf? levels k path isDir) (verdictOf? levels' k path isDir) :=
  Stricter.findSome? (h.imp fun _ _ hl => (hl k).verdict? path isDir)

theorem AddsSkips.skips {s s' : IgnoreState} (h : AddsSkips s s') {p : Path} {isDir : Bool}
    (hs : s.skips p isDir = true) : s'.skips p isDir = true := by
  have hverdict : Stricter (s.verdict? p isDir) (s'.verdict? p isDir) := by
    have htop : ∀ path, s'.fromTop path = s.fromTop path := by
      intro path
      simp only [fromTop, h.root, h.base]
    refine (Stricter.findSome? (List.forall₂_same.2 fun k _ => ?_)).or
      (h.everywhere.verdict? _ isDir)
    rw [htop]
    exact (verdictOf?_of_addsSkips h.walked k _ isDir).or
      (verdictOf?_of_addsSkips h.around k _ isDir)
  unfold IgnoreState.skips at hs ⊢
  rcases hverdict with hskip | hsame
  · rw [hskip]
  · rwa [hsame]

end IgnoreState

end ResourceManifest
