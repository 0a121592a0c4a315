import ResourceManifest.Proofs.Yaml.Advances
import ResourceManifest.Proofs.Yaml.Events

/-!
Documents of which only the beginning is known: what stands behind the key of some member is left
open. Whatever it is, the scanner and the reader have come to that key, unless it is too long to be
one.
-/

set_option autoImplicit false

namespace ResourceManifest.Yaml

namespace Layout

variable (l : Layout)

def openRecord (rest : List Char) : List Field → List Char
  | [] => List.replicate l.column ' ' ++ '-' :: ' ' :: rest
  | f :: fs => l.writeRecord (f :: fs) ++ (List.replicate (l.column + 2) ' ' ++ rest)

/-- A document up to the key `k`, before which there are some records and some members of the last
record. -/
def writeTo (key : String) (rs : List (List Field)) (fs : List Field) (k : Key)
    (rest : List Char) : List Char :=
  l.write key rs ++ l.openRecord (k.write l ++ ':' :: rest) fs

theorem write_eq_writeTo (key : String) (rs : List (List Field)) (fs : List Field) (f : Field)
    (more : List Field) (later : List (List Field)) :
    l.write key (rs ++ (fs ++ f :: more) :: later) = l.writeTo key rs fs (.word f.key)
      (' ' :: (f.value.write l ++ '\n' :: (l.writeMore more ++ later.flatMap l.writeRecord))) := by
  cases fs with
  | nil => simp [write, writeTo, openRecord, writeRecord, writeField, Key.write]
  | cons g fs =>
    simp [write, writeTo, openRecord, writeRecord, writeField, writeMore, Key.write]

theorem mem_writeTo {key : String} {rs : List (List Field)} {fs : List Field} {k : Key}
    {rest : List Char} {c : Char} (h : c ∈ rest) : c ∈ l.writeTo key rs fs k rest := by
  cases fs <;> simp [writeTo, openRecord, h]

end Layout

namespace Scanner

variable {rest r : List Char} {key : String} {rs : List (List Field)} {fs : List Field} {k : Key}

def openingKinds (l : Layout) (key : String) (rs : List (List Field)) : List TokenKind :=
  [.blockMappingStart, .key false, .scalar .plain key.toList, .value] ++
    (sequenceKinds l .blockSequenceStart ++ (rs.flatMap recordKinds ++ [.blockEntry]))

/-- The tokens of the first members of a record, which begin its mapping if there are any. -/
def startKinds : List Field → List TokenKind
  | [] => []
  | f :: fs => .blockMappingStart :: (f :: fs).flatMap fieldKinds

def startMargin (l : Layout) : List Field → Nat
  | [] => l.column + 1
  | _ :: _ => l.column + 3

def keyKinds (fs : List Field) (k : Key) : List TokenKind :=
  .blockMappingStart :: (fs.flatMap fieldKinds ++
    [.key false, .scalar k.style k.text.toList, .value])

theorem tail_flatMap_nextKinds_concat (rs : List (List Field)) (fs : List Field) :
    ((rs ++ [fs]).flatMap nextKinds).tail =
      rs.flatMap recordKinds ++ .blockEntry :: .blockMappingStart :: fs.flatMap fieldKinds := by
  have hcons : (rs ++ [fs]).flatMap nextKinds = (rs.flatMap nextKinds ++ [.blockEnd]) ++
      (.blockEntry :: .blockMappingStart :: fs.flatMap fieldKinds) := by
    simp [nextKinds]
  rw [hcons, flatMap_nextKinds]
  rfl

theorem scans_openRecord_nil (l : Layout) (hkey : IsWord key) (hrs : [] ∉ rs)
    (hplain : ∀ fs ∈ rs, ∀ f ∈ fs, f.IsPlain) :
    ∃ g m, m.column = l.column + 2 ∧
      Scans (8 * (l.write key rs ++ l.openRecord rest []).length + 8)
        (resting (l.write key rs ++ l.openRecord rest []) {} 0 0 [] true)
        (openingKinds l key rs) (resting rest m g (l.column + 1) (recordMargins l) true) := by
  have hlen : (l.write key rs ++ l.openRecord rest []).length =
      (l.write key rs).length + (l.column + 2) + rest.length := by
    simp only [Layout.openRecord, List.length_append, List.length_replicate, List.length_cons]
    omega
  cases rs with
  | nil =>
    obtain ⟨g, m, hm, hopening⟩ := scans_opening l hkey rest
    have hwrite : (l.write key []).length = key.toList.length + 2 := by simp [Layout.write]
    have hall := hopening.mono
      (j := 8 * (l.write key [] ++ l.openRecord rest []).length + 8) (by omega)
    refine ⟨g, m, hm, ?_⟩
    simpa only [Layout.write, Layout.openRecord, openingKinds, List.flatMap_nil, List.append_nil,
      List.append_assoc, List.cons_append, List.nil_append] using hall
  | cons fs rs =>
    have hne : fs :: rs ≠ [] := List.cons_ne_nil fs rs
    have hstop : IsStop ('-' :: ' ' :: rest) := fun c hc => by
      obtain rfl := Option.some.inj hc
      exact ⟨rfl, rfl⟩
    obtain ⟨g₁, m₁, hm₁, hwritten⟩ := scans_written l hkey hne hrs hplain
      (Nat.le_add_right l.column 2) hstop
    obtain ⟨g₂, hdash⟩ := scans_next_dash (g := g₁) (r := rest) l hm₁
    have hall := (hwritten.append hdash).mono
      (j := 8 * (l.write key (fs :: rs) ++ l.openRecord rest []).length + 8) (by omega)
    refine ⟨g₂, m₁.right 2, by simp only [Mark.right]; rw [hm₁], ?_⟩
    have hkinds : (List.flatMap nextKinds (fs :: rs)).tail ++ [.blockEnd, .blockEntry] =
        (fs :: rs).flatMap recordKinds ++ [.blockEntry] := by
      rw [← tail_flatMap_nextKinds hne, List.append_assoc]
      rfl
    simp only [List.append_assoc, hkinds] at hall
    simpa only [Layout.openRecord, openingKinds, List.append_assoc] using hall

theorem scans_openRecord (l : Layout) (hkey : IsWord key) (hrs : [] ∉ rs)
    (hplain : ∀ fs' ∈ rs ++ [fs], ∀ f ∈ fs', f.IsPlain) (hrest : IsStop rest) :
    ∃ g m N, m.column = l.column + 2 ∧
      Scans (8 * (l.write key rs ++ l.openRecord rest fs).length + 8)
        (resting (l.write key rs ++ l.openRecord rest fs) {} 0 0 [] true)
        (openingKinds l key rs ++ startKinds fs)
        (resting rest m g (startMargin l fs) N true) := by
  cases fs with
  | nil =>
    obtain ⟨g, m, hm, hsign⟩ := scans_openRecord_nil l hkey hrs
      fun fs' h => hplain fs' (List.mem_append_left _ h)
    refine ⟨g, m, recordMargins l, hm, ?_⟩
    simpa only [startKinds, startMargin, List.append_nil] using hsign
  | cons f fs =>
    have hrs' : [] ∉ rs ++ [f :: fs] := by simpa using hrs
    obtain ⟨g, m, hm, hwritten⟩ := scans_written l hkey (by simp) hrs' hplain (Nat.le_refl _) hrest
    have htext : l.write key (rs ++ [f :: fs]) ++ (List.replicate (l.column + 2) ' ' ++ rest) =
        l.write key rs ++ l.openRecord rest (f :: fs) := by
      simp [Layout.write, Layout.openRecord]
    have hlen := congrArg List.length htext
    rw [List.length_append] at hlen
    rw [htext, tail_flatMap_nextKinds_concat] at hwritten
    refine ⟨g, m, (l.column + 1) :: recordMargins l, hm, ?_⟩
    simp only [openingKinds, startKinds, startMargin, List.append_assoc, List.cons_append,
      List.nil_append] at hwritten ⊢
    exact hwritten.mono (by omega)

theorem startMargin_le (l : Layout) (fs : List Field) : startMargin l fs ≤ l.column + 2 + 1 := by
  cases fs <;> simp [startMargin]

theorem startKinds_append_key (l : Layout) (fs : List Field) (k : Key) :
    startKinds fs ++ ((if startMargin l fs ≤ l.column + 2 then [.blockMappingStart] else []) ++
      [.key false, .scalar k.style k.text.toList, .value]) = keyKinds fs k := by
  cases fs <;> simp [startKinds, startMargin, keyKinds]

theorem isStop_key (l : Layout) (hk : k.IsPlain) : IsStop (k.write l ++ r) := by
  cases k with
  | word w => exact isStop_append (hk w rfl).1 (hk w rfl).2
  | quoted s =>
    intro c hc
    obtain rfl := Option.some.inj hc
    exact ⟨rfl, rfl⟩

theorem streamEnd_notMem_fieldKinds (f : Field) : .streamEnd ∉ fieldKinds f := by
  cases hv : f.value with
  | flow ss => cases ss <;> simp [fieldKinds, hv, contentKinds, itemKinds, moreItemKinds]
  | _ => simp [fieldKinds, hv, contentKinds]

theorem streamEnd_notMem_startKinds (fs : List Field) : .streamEnd ∉ startKinds fs := by
  cases fs <;> simp [startKinds, streamEnd_notMem_fieldKinds]

theorem streamEnd_notMem_openingKinds (l : Layout) (key : String) (rs : List (List Field)) :
    .streamEnd ∉ openingKinds l key rs := by
  unfold openingKinds sequenceKinds
  split <;> simp [recordKinds, streamEnd_notMem_fieldKinds]

section Key

variable {c : Char} (l : Layout) (hkey : IsWord key) (hrs : [] ∉ rs)
  (hplain : ∀ fs' ∈ rs ++ [fs], ∀ f ∈ fs', f.IsPlain) (hk : k.IsPlain) (hc : isGap c = true)
include hkey hrs hplain hk hc

theorem scans_writeTo (hlen : (k.write l).length ≤ 1024) :
    ∃ t, Scans (8 * (l.writeTo key rs fs k (c :: r)).length + 14)
      (resting (l.writeTo key rs fs k (c :: r)) {} 0 0 [] true)
      (openingKinds l key rs ++ keyKinds fs k) t := by
  obtain ⟨g, m, N, hm, hopen⟩ := scans_openRecord l hkey hrs hplain
    (isStop_key (r := ':' :: c :: r) l hk)
  obtain ⟨g', hcolon⟩ := scans_key (r := r) (m := m) (g := g) (N := N)
    l hk hlen hc (hm ▸ startMargin_le l fs)
  have hall := hopen.append hcolon
  rw [List.append_assoc, hm, startKinds_append_key] at hall
  exact ⟨_, hall⟩

theorem fails_writeTo (hlen : 1024 < (k.write l).length) :
    ∃ kinds, .streamEnd ∉ kinds ∧ Fails (8 * (l.writeTo key rs fs k (c :: r)).length + 14)
      (resting (l.writeTo key rs fs k (c :: r)) {} 0 0 [] true) kinds := by
  obtain ⟨g, m, N, hm, hopen⟩ := scans_openRecord l hkey hrs hplain
    (isStop_key (r := ':' :: c :: r) l hk)
  obtain ⟨kinds, hkinds, hcolon⟩ := fails_key (r := r) (m := m) (g := g) (N := N)
    l hk hlen hc (hm ▸ startMargin_le l fs)
  have hall := (hopen.fails hcolon).mono
    (j := 8 * (l.writeTo key rs fs k (c :: r)).length + 14) (by rw [Layout.writeTo]; omega)
  refine ⟨_, fun hmem => ?_, hall⟩
  rcases List.mem_append.1 hmem with hmem | hmem
  · rcases List.mem_append.1 hmem with hmem | hmem
    · exact streamEnd_notMem_openingKinds l key rs hmem
    · exact streamEnd_notMem_startKinds fs hmem
  · cases List.mem_singleton.1 (hkinds hmem)

end Key

theorem Scans.tokens {text : List Char} {kinds : List TokenKind} {t : Scanner}
    (h : Scans (8 * text.length + 14) (resting text {} 0 0 [] true) kinds t) :
    ∃ ts more fault?, Yaml.tokens ⟨text, none⟩ = (ts ++ more, fault?) ∧
      ts.map Token.kind = kinds := by
  obtain ⟨j, ts, hj, hts, hrun⟩ := h
  have hall := hrun (8 * text.length + 16 - j)
  rw [Nat.add_sub_cancel' (by omega)] at hall
  exact ⟨ts, _, _, hall, hts⟩

theorem Fails.tokens {text : List Char} {kinds : List TokenKind}
    (h : Fails (8 * text.length + 14) (resting text {} 0 0 [] true) kinds) :
    ∃ ts f, Yaml.tokens ⟨text, none⟩ = (ts, some f) ∧ ts.map Token.kind = kinds := by
  obtain ⟨j, ts, f, hj, hts, hrun⟩ := h
  have hall := hrun (8 * text.length + 16 - j)
  rw [Nat.add_sub_cancel' (by omega)] at hall
  exact ⟨ts, f, hall, hts⟩

end Scanner

namespace Reading

open Scanner

variable {p : List Token → Prop} {a b : Reading Unit} {ks : List TokenKind} {es : List EventKind}

abbrev Passes : Ending := fun result s => Onward s (left result)

theorem Advances.passes (h : Advances a) : ReadsTo Passes p a [] [] := by
  intro ts rest s hts htokens _
  obtain rfl := List.map_eq_nil_iff.1 hts
  obtain rfl : s.tokens = rest := htokens
  exact ⟨[], rfl, h s⟩

theorem ReadsTo.passes_bind (ha : ReadsTo Passes p a ks es) (hb : Advances b) :
    ReadsTo Passes p (a >>= fun _ => b) ks es := by
  intro ts rest s hts htokens hrest
  obtain ⟨added, hadded, hpasses⟩ := ha ts rest s hts htokens hrest
  exact ⟨added, hadded, hpasses.trans (Advances.onward_bind (fun _ => hb) s)⟩

def keyEvents (fs : List Field) (k : Key) : List EventKind :=
  .mappingStart none :: (fs.flatMap fieldEvents ++ [.scalar none k.style k.text])

theorem passes_record (fs : List Field) (k : Key) {n : Nat}
    (hfuel : (keyKinds fs k).length + 4 ≤ n) :
    ReadsTo Passes p (node n true false) (keyKinds fs k) (keyEvents fs k) := by
  obtain ⟨n, rfl⟩ := Nat.exists_eq_add_of_le' (Nat.le_trans (Nat.le_add_left 4 _) hfuel)
  refine .of_cons fun m r s h => ⟨_, ?_, node_collection (n + 3) false rfl h⟩
  simp only [keyKinds, List.length_cons, List.length_append] at hfuel
  refine readsTo_fields (N := 3) (fun n hn => ?_) (Nat.le_refl 3) fs (by omega)
  obtain ⟨n, rfl⟩ := Nat.exists_eq_add_of_le' hn
  refine readsTo_member m k.style k.text fun behind => Advances.passes ?_
  exact ((allAdvance _).blockMember behind).bind fun _ => (allAdvance _).blockMapping m

theorem passes_entry {f : Nat → Reading Unit}
    (hentry : ∀ n m m' r s,
      s.tokens = ⟨.blockEntry, m⟩ :: ⟨.blockMappingStart, m'⟩ :: r →
      f (n + 1) s = (node n true false >>= fun _ => f n)
        { s with tokens := ⟨.blockMappingStart, m'⟩ :: r })
    (hf : ∀ n, Advances (f n)) (fs : List Field) (k : Key) {n : Nat}
    (hfuel : (keyKinds fs k).length + 5 ≤ n) :
    ReadsTo Passes p (f n) (.blockEntry :: keyKinds fs k) (keyEvents fs k) := by
  obtain ⟨n, rfl⟩ := Nat.exists_eq_add_of_le' (Nat.le_trans (Nat.le_add_left 1 _) hfuel)
  exact .entry hentry ((passes_record fs k (n := n) (by omega)).passes_bind (hf n))

def openingEvents (key : String) (rs : List (List Field)) : List EventKind :=
  .mappingStart none :: ([.scalar none .plain key] ++
    (.sequenceStart none :: rs.flatMap recordEvents))

theorem passes_document (l : Layout) (key : String) (rs : List (List Field)) (fs : List Field)
    (k : Key) {n : Nat}
    (hfuel : (rs.flatMap recordKinds).length + (keyKinds fs k).length + 11 ≤ n) :
    ReadsTo Passes p (node n true false) (openingKinds l key rs ++ keyKinds fs k)
      (openingEvents key rs ++ keyEvents fs k) := by
  obtain ⟨n, rfl⟩ : ∃ j, n = j + 4 := ⟨n - 4, by omega⟩
  have hsequence : ∀ behind, ReadsTo Passes p (blockMember (n + 2) behind)
      (sequenceKinds l .blockSequenceStart ++ (rs.flatMap recordKinds ++
        .blockEntry :: keyKinds fs k))
      (.sequenceStart none :: (rs.flatMap recordEvents ++ keyEvents fs k)) := by
    refine readsTo_sequence (N := (keyKinds fs k).length + 5) l (fun _ n hn => ?_)
      (fun _ n start hn => ?_) (by omega) ?_ (by omega)
    · exact passes_entry (fun n _ _ _ _ => indentlessSequence_entry n)
        (fun n => (allAdvance n).indentlessSequence) fs k hn
    · exact passes_entry (fun n _ _ _ _ => blockSequence_entry n start)
        (fun n => (allAdvance n).blockSequence start) fs k hn
    · cases rs <;> rfl
  have hmember := fun start => readsTo_member start .plain key fun behind =>
    (hsequence behind).passes_bind ((allAdvance (n + 2)).blockMapping start)
  have hall := ReadsTo.of_cons (p := p) (k := .blockMappingStart) (e := .mappingStart none)
    fun m r s h => ⟨_, hmember m, node_collection (n + 3) false rfl h⟩
  simpa only [openingKinds, openingEvents, List.append_assoc, List.cons_append, List.nil_append]
    using hall

end Reading

namespace Document

open Reading

theorem events_ofTokens (ts : List Token) (fault? : Option Fault) :
    (ofTokens ts fault?).events =
      (left (firstDocument (2 * ts.length + 4) { tokens := ts, fault? })).events.reverse := by
  unfold ofTokens
  split
  case h_1 h => rw [h]; rfl
  case h_2 h => rw [h]; rfl

structure IsWell (d : Document) : Prop where
  interruption : d.interruption? = none
  successor : d.hasSuccessor = false

theorem not_isWell_ofTokens {ts : List Token} (h : .streamEnd ∉ ts.map Token.kind)
    (fault? : Option Fault) : ¬ (ofTokens ts fault?).IsWell := by
  have hfirst := advances_firstDocument (2 * ts.length + 4) { tokens := ts, fault? }
  intro hwell
  have hsuccessor := hwell.successor
  have hinterruption := hwell.interruption
  unfold ofTokens at hsuccessor hinterruption
  split at hsuccessor
  case h_1 s hs =>
    rw [hs] at hfirst
    have hsub : s.tokens.dropWhile (·.kind == .documentEnd) <:+ ts :=
      (List.dropWhile_suffix _).trans hfirst.tokens
    cases hrest : s.tokens.dropWhile (·.kind == .documentEnd) with
    | nil => simp [hrest] at hsuccessor
    | cons t r =>
      rw [hrest] at hsub
      have hend : t.kind = .streamEnd := by simpa [hrest] using hsuccessor
      exact h (hend ▸ List.mem_map_of_mem (hsub.mem List.mem_cons_self))
  case h_2 s hs => simp [hs] at hinterruption

theorem ofTokens_opening (l : Layout) (key : String) (rs : List (List Field)) (fs : List Field)
    (k : Key) {ts : List Token}
    (hts : ts.map Token.kind = Scanner.openingKinds l key rs ++ Scanner.keyKinds fs k)
    (more : List Token) (fault? : Option Fault) :
    ∃ added later : List Event, added.map Event.kind = openingEvents key rs ++ keyEvents fs k ∧
      (ofTokens (ts ++ more) fault?).events = added ++ later := by
  let n := 2 * (ts ++ more).length + 4
  have hlen : (rs.flatMap Scanner.recordKinds).length + (Scanner.keyKinds fs k).length + 4 ≤
      ts.length := by
    rw [← List.length_map (f := Token.kind), hts]
    simp only [Scanner.openingKinds, List.length_append, List.length_cons, List.length_nil]
    omega
  obtain ⟨m, ts', hcons, -⟩ := exists_token_cons hts
  have hdocument : firstDocument n { tokens := ts ++ more, fault? } =
      (do node n true false; discard peek)
        { tokens := ts ++ more, fault?, handles := defaultHandles } :=
    firstDocument_mapping (m := m) (r := ts' ++ more) (by simp only [hcons]; rfl) _ rfl
  obtain ⟨added, hadded, hpasses⟩ := passes_document (p := Anything) l key rs fs k
    (n := n) (by simp only [n, List.length_append]; omega) ts more
    { tokens := ts ++ more, fault?, handles := defaultHandles } hts rfl trivial
  obtain ⟨later, hlater⟩ :=
    (hpasses.trans (Advances.onward_bind (fun _ => advances_discard) _)).events
  refine ⟨added, later.reverse, hadded, ?_⟩
  rw [events_ofTokens, hdocument, ← hlater]
  simp

end Document

section Written

variable {r : List Char} {key : String} {rs : List (List Field)} {fs : List Field} {k : Key}
  {c : Char} (l : Layout)

theorem all_key (hk : k.IsPlain) : (k.write l).all isTextChar = true := by
  cases k with
  | word w =>
    exact List.all_eq_true.2 fun c hc => isTextChar_of_isPlainChar ((hk w rfl).2 c hc)
  | quoted s => exact all_quote l s

theorem isTextChar_of_mem_writeTo (hkey : IsWord key)
    (hplain : ∀ fs' ∈ rs ++ [fs], ∀ f ∈ fs', f.IsPlain) (hk : k.IsPlain)
    (hr : ∀ d ∈ r, isTextChar d = true) :
    ∀ d ∈ l.writeTo key rs fs k r, isTextChar d = true := by
  have hwrite := List.all_eq_true.2 (isTextChar_of_mem_write l hkey fun fs' h =>
    hplain fs' (List.mem_append_left [fs] h))
  have hrecord := all_writeRecord l
    (hplain fs (List.mem_append_right rs (List.mem_singleton_self fs)))
  have hrest : (k.write l ++ ':' :: r).all isTextChar = true := by
    rw [List.all_append, List.all_cons, all_key l hk, List.all_eq_true.2 hr]
    rfl
  refine List.all_eq_true.1 ?_
  rw [Layout.writeTo, List.all_append, hwrite]
  cases fs with
  | nil =>
    rw [Layout.openRecord, List.all_append, List.all_cons, List.all_cons, all_replicate, hrest]
    rfl
  | cons f fs =>
    rw [Layout.openRecord, List.all_append, List.all_append, hrecord, all_replicate, hrest]
    rfl

theorem Document.ofBytes_writeTo (hkey : IsWord key) (hrs : [] ∉ rs)
    (hplain : ∀ fs' ∈ rs ++ [fs], ∀ f ∈ fs', f.IsPlain) (hk : k.IsPlain) (hc : isGap c = true)
    (hr : ∀ d ∈ c :: r, isTextChar d = true) :
    let d := Document.ofBytes (Utf8.encodeChars (l.writeTo key rs fs k (c :: r)))
    d.IsWell → ∃ added later : List Event,
      added.map Event.kind = Reading.openingEvents key rs ++ Reading.keyEvents fs k ∧
        d.events = added ++ later := by
  intro d hwell
  have htext := isTextChar_of_mem_writeTo l hkey hplain hk hr
  have hd : ∀ ts fault?, tokens ⟨l.writeTo key rs fs k (c :: r), none⟩ = (ts, fault?) →
      d = ofTokens ts fault? := by
    intro ts fault? htokens
    simp only [d, ofBytes, Source.ofBytes_encodeChars htext, htokens]
  by_cases hlen : (k.write l).length ≤ 1024
  · obtain ⟨t, hscans⟩ := Scanner.scans_writeTo l hkey hrs hplain hk hc hlen (r := r)
    obtain ⟨ts, more, fault?, htokens, hts⟩ := hscans.tokens
    rw [hd _ _ htokens]
    exact ofTokens_opening l key rs fs k hts more fault?
  · obtain ⟨kinds, hend, hfails⟩ := Scanner.fails_writeTo l hkey hrs hplain hk hc
      (Nat.lt_of_not_le hlen) (r := r)
    obtain ⟨ts, f, htokens, hts⟩ := hfails.tokens
    rw [hd _ _ htokens] at hwell
    exact absurd hwell (not_isWell_ofTokens (hts ▸ hend) (some f))

end Written

end ResourceManifest.Yaml
