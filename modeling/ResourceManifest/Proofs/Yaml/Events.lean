import ResourceManifest.Proofs.Yaml.Characters
import ResourceManifest.Proofs.Yaml.Scanning
import ResourceManifest.Yaml.Event

set_option autoImplicit false

namespace ResourceManifest.Yaml

namespace Reading

abbrev Ending := EStateM.Result Interruption Reader Unit → Reader → Prop

/-- A reading takes tokens of these kinds, if what is behind them satisfies `p`, and adds events of
those kinds; `E` is what becomes of it then. -/
def ReadsTo (E : Ending) (p : List Token → Prop) (a : Reading Unit) (ks : List TokenKind)
    (es : List EventKind) : Prop :=
  ∀ (ts rest : List Token) (s : Reader), ts.map Token.kind = ks → s.tokens = ts ++ rest → p rest →
    ∃ added : List Event, added.map Event.kind = es ∧
      E (a s) { s with tokens := rest, events := added.reverse ++ s.events }

abbrev Ends : Ending := fun result s => result = .ok () s

abbrev Reads := ReadsTo Ends

abbrev Anything : List Token → Prop := fun _ => True

variable {s s' : Reader} {E : Ending} {p q : List Token → Prop} {a b : Reading Unit}
  {ks ls : List TokenKind} {es fs : List EventKind} {t : Token} {r : List Token} {m : Mark}

theorem bind_ok {α β : Type} {x : Reading α} {f : α → Reading β} {v : α} (h : x s = .ok v s') :
    (x >>= f) s = f v s' := by
  simp only [bind, EStateM.bind, h]

theorem peek_cons (h : s.tokens = t :: r) : peek s = .ok t s := by
  obtain ⟨tokens, _, _, _, _, _⟩ := s
  obtain rfl : tokens = t :: r := h
  rfl

theorem drop_cons (h : s.tokens = t :: r) : drop s = .ok () { s with tokens := r } := by
  obtain ⟨tokens, _, _, _, _, _⟩ := s
  obtain rfl : tokens = t :: r := h
  rfl

theorem emit_eq (kind : EventKind) (m : Mark) (s : Reader) :
    emit kind m s = .ok () { s with events := ⟨kind, m⟩ :: s.events } := rfl

/-! A node without an anchor and a tag, by its first token. -/

theorem properties_none {kind : TokenKind} (h : s.tokens = ⟨kind, m⟩ :: r)
    (ha : ∀ name, kind ≠ .anchor name) (ht : ∀ handle suffix, kind ≠ .tag handle suffix) :
    properties s = .ok {} s := by
  rw [properties, bind_ok (peek_cons h)]
  cases kind <;> first | rfl | exact absurd rfl (ha _) | exact absurd rfl (ht _ _)

theorem resolveTag_none (m : Mark) (s : Reader) : resolveTag {} m s = .ok none s := rfl

theorem announce_eq (kind : EventKind) (m : Mark) (s : Reader) :
    (do addAnchor none; emit kind m) s = .ok () { s with events := ⟨kind, m⟩ :: s.events } := rfl

section Node

variable (n : Nat) (block indentless : Bool)

theorem node_scalar {style : ScalarStyle} {text : List Char}
    (h : s.tokens = ⟨.scalar style text, m⟩ :: r) :
    node (n + 1) block indentless s = .ok () { s with
      tokens := r, events := ⟨.scalar none style (String.ofList text), m⟩ :: s.events } := by
  have hproperties := properties_none h (fun _ h => nomatch h) (fun _ _ h => nomatch h)
  rw [node, bind_ok (peek_cons h)]
  simp only
  rw [bind_ok hproperties, bind_ok (resolveTag_none _ _), bind_ok (peek_cons h)]
  simp only
  rw [bind_ok (drop_cons h)]
  rfl

/-- What the first token of a collection begins: an event, and a reading of the rest. -/
def collection? (m : Mark) : TokenKind → Option (EventKind × Reading Unit)
  | .flowSequenceStart => some (.sequenceStart none, flowSequence n m true)
  | .blockSequenceStart => some (.sequenceStart none, blockSequence n m)
  | .blockMappingStart => some (.mappingStart none, blockMapping n m)
  | _ => none

theorem node_collection {kind : TokenKind} {event : EventKind}
    (hk : collection? n m kind = some (event, a)) (h : s.tokens = ⟨kind, m⟩ :: r) :
    node (n + 1) true indentless s = a { s with
      tokens := r, events := ⟨event, m⟩ :: s.events } := by
  unfold collection? at hk
  split at hk <;> cases hk <;>
  · have hproperties := properties_none h (fun _ h => nomatch h) (fun _ _ h => nomatch h)
    rw [node, bind_ok (peek_cons h)]
    simp only
    rw [bind_ok hproperties, bind_ok (resolveTag_none _ _), bind_ok (peek_cons h)]
    simp only [reduceCtorEq, false_and, if_false, and_self, if_true]
    rw [bind_ok (announce_eq _ _ _)]
    exact bind_ok (drop_cons h)

theorem node_indentless (h : s.tokens = ⟨.blockEntry, m⟩ :: r) :
    node (n + 1) block true s = indentlessSequence n { s with
      events := ⟨.sequenceStart none, m⟩ :: s.events } := by
  have hproperties := properties_none h (fun _ h => nomatch h) (fun _ _ h => nomatch h)
  rw [node, bind_ok (peek_cons h)]
  simp only
  rw [bind_ok hproperties, bind_ok (resolveTag_none _ _), bind_ok (peek_cons h)]
  simp only [and_self, if_true]
  rw [bind_ok (announce_eq _ _ _)]

end Node

/-! What is read for each part of a document. -/

theorem exists_token_cons {k : TokenKind} {ts : List Token} (h : ts.map Token.kind = k :: ks) :
    ∃ m ts', ts = ⟨k, m⟩ :: ts' ∧ ts'.map Token.kind = ks := by
  obtain ⟨t, ts', rfl, rfl, hts'⟩ := List.map_eq_cons_iff.1 h
  exact ⟨t.mark, ts', rfl, hts'⟩

theorem ReadsTo.step (ks₀ : List TokenKind) (es₀ : List EventKind)
    (h : ∀ (ts r : List Token) (s : Reader), ts.map Token.kind = ks₀ → s.tokens = ts ++ r →
      ∃ (b : Reading Unit) (added : List Event), ReadsTo E p b ks es ∧ added.map Event.kind = es₀ ∧
        a s = b { s with tokens := r, events := added.reverse ++ s.events }) :
    ReadsTo E p a (ks₀ ++ ks) (es₀ ++ es) := by
  intro ts rest s hts htokens hrest
  obtain ⟨ts₁, ts₂, rfl, h₁, h₂⟩ := List.map_eq_append_iff.1 hts
  rw [List.append_assoc] at htokens
  obtain ⟨b, added, hb, rfl, hab⟩ := h ts₁ _ s h₁ htokens
  obtain ⟨added', rfl, hE⟩ := hb ts₂ rest
    { s with tokens := ts₂ ++ rest, events := added.reverse ++ s.events } h₂ rfl hrest
  refine ⟨added ++ added', List.map_append, ?_⟩
  rw [hab, List.reverse_append, List.append_assoc]
  exact hE

theorem ReadsTo.of_cons {k : TokenKind} {e : EventKind}
    (h : ∀ m r s, s.tokens = ⟨k, m⟩ :: r → ∃ b, ReadsTo E p b ks es ∧
      a s = b { s with tokens := r, events := ⟨e, m⟩ :: s.events }) :
    ReadsTo E p a (k :: ks) (e :: es) := by
  refine .step [k] [e] fun ts r s hts htokens => ?_
  obtain ⟨m, ts', rfl, hts'⟩ := exists_token_cons hts
  obtain rfl := List.map_eq_nil_iff.1 hts'
  obtain ⟨b, hb, hab⟩ := h m r s htokens
  exact ⟨b, [⟨e, m⟩], hb, rfl, hab⟩

theorem reads_nothing : Reads p (pure ()) [] [] := by
  intro ts rest s hts htokens _
  obtain rfl := List.map_eq_nil_iff.1 hts
  obtain rfl : s.tokens = rest := htokens
  exact ⟨[], rfl, rfl⟩

theorem Reads.bind (ha : Reads p a ks es) (hb : ReadsTo E q b ls fs)
    (hp : ∀ ts rest, ts.map Token.kind = ls → q rest → p (ts ++ rest)) :
    ReadsTo E q (a >>= fun _ => b) (ks ++ ls) (es ++ fs) := by
  intro ts rest s hts htokens hrest
  obtain ⟨ts₁, ts₂, rfl, h₁, h₂⟩ := List.map_eq_append_iff.1 hts
  rw [List.append_assoc] at htokens
  obtain ⟨added₁, rfl, hok₁⟩ := ha ts₁ _ s h₁ htokens (hp ts₂ rest h₂ hrest)
  obtain ⟨added₂, rfl, hE⟩ := hb ts₂ rest
    { s with tokens := ts₂ ++ rest, events := added₁.reverse ++ s.events } h₂ rfl hrest
  refine ⟨added₁ ++ added₂, List.map_append, ?_⟩
  rw [bind_ok hok₁, List.reverse_append, List.append_assoc]
  exact hE

theorem flowSequence_end (n : Nat) (start : Mark) (isFirst : Bool)
    (h : s.tokens = ⟨.flowSequenceEnd, m⟩ :: r) :
    flowSequence (n + 1) start isFirst s =
      .ok () { s with tokens := r, events := ⟨.sequenceEnd, m⟩ :: s.events } := by
  rw [flowSequence, bind_ok (peek_cons h)]
  simp only [ne_eq, not_true, false_and, if_false]
  rw [bind_ok (peek_cons h)]
  simp only
  rw [bind_ok (emit_eq _ _ _)]
  exact drop_cons h

theorem flowSequence_item (n : Nat) (start : Mark) {style : ScalarStyle} {text : List Char}
    (h : s.tokens = ⟨.scalar style text, m⟩ :: r) :
    flowSequence (n + 2) start true s = flowSequence (n + 1) start false { s with
      tokens := r, events := ⟨.scalar none style (String.ofList text), m⟩ :: s.events } := by
  rw [flowSequence, bind_ok (peek_cons h)]
  simp only [Bool.not_true, Bool.false_eq_true, and_false, if_false]
  rw [bind_ok (peek_cons h)]
  simp only
  exact bind_ok (node_scalar n false false h)

theorem flowSequence_next (n : Nat) (start : Mark) {style : ScalarStyle} {text : List Char}
    {m' : Mark} (h : s.tokens = ⟨.flowEntry, m'⟩ :: ⟨.scalar style text, m⟩ :: r) :
    flowSequence (n + 2) start false s = flowSequence (n + 1) start false { s with
      tokens := r, events := ⟨.scalar none style (String.ofList text), m⟩ :: s.events } := by
  rw [flowSequence, bind_ok (peek_cons h)]
  simp only [ne_eq, reduceCtorEq, not_false_eq_true, Bool.not_false, and_self, if_true]
  rw [bind_ok (peek_cons h)]
  simp only [if_true]
  rw [bind_ok (drop_cons h), bind_ok (peek_cons rfl)]
  simp only
  exact bind_ok (node_scalar n false false rfl)

def itemEvent (s : String) : EventKind := .scalar none .doubleQuoted s

theorem reads_moreItems (ss : List String) {n : Nat} (hfuel : ss.length < n) (start : Mark) :
    Reads p (flowSequence n start false) (Scanner.moreItemKinds ss)
      (ss.map itemEvent ++ [.sequenceEnd]) := by
  induction ss generalizing n with
  | nil =>
    obtain ⟨n, rfl⟩ := Nat.exists_eq_add_of_lt hfuel
    exact .of_cons fun m r s h => ⟨_, reads_nothing, flowSequence_end _ start false h⟩
  | cons item ss ih =>
    rw [List.length_cons] at hfuel
    obtain ⟨n, rfl⟩ : ∃ k, n = k + 2 := ⟨n - 2, by omega⟩
    refine .step [.flowEntry, .scalar .doubleQuoted item.toList] [itemEvent item]
      fun ts r s hts htokens => ?_
    obtain ⟨m, ts₁, rfl, hts₁⟩ := exists_token_cons hts
    obtain ⟨m', ts₂, rfl, hts₂⟩ := exists_token_cons hts₁
    obtain rfl := List.map_eq_nil_iff.1 hts₂
    refine ⟨_, [⟨itemEvent item, m'⟩], ih (n := n + 1) (by omega), rfl, ?_⟩
    rw [flowSequence_next n start htokens, String.ofList_toList]
    rfl

theorem reads_items (ss : List String) {n : Nat} (hfuel : ss.length < n) (start : Mark) :
    Reads p (flowSequence n start true) (Scanner.itemKinds ss)
      (ss.map itemEvent ++ [.sequenceEnd]) := by
  cases ss with
  | nil =>
    obtain ⟨n, rfl⟩ := Nat.exists_eq_add_of_lt hfuel
    exact .of_cons fun m r s h => ⟨_, reads_nothing, flowSequence_end _ start true h⟩
  | cons item ss =>
    rw [List.length_cons] at hfuel
    obtain ⟨n, rfl⟩ : ∃ k, n = k + 2 := ⟨n - 2, by omega⟩
    refine .of_cons fun m r s h => ⟨_, reads_moreItems ss (n := n + 1) (by omega) start, ?_⟩
    rw [flowSequence_item n start h, String.ofList_toList]
    rfl

def contentEvents : Content → List EventKind
  | .word s => [.scalar none .plain s]
  | .quoted s => [.scalar none .doubleQuoted s]
  | .flow ss => .sequenceStart none :: (ss.map itemEvent ++ [.sequenceEnd])

theorem length_moreItemKinds (ss : List String) :
    (Scanner.moreItemKinds ss).length = 2 * ss.length + 1 := by
  induction ss with
  | nil => rfl
  | cons s ss ih =>
    rw [Scanner.moreItemKinds, List.flatMap_cons, List.append_assoc, List.length_append,
      ← Scanner.moreItemKinds, ih, List.length_cons]
    simp only [List.length_cons, List.length_nil]
    omega

theorem length_lt_itemKinds (ss : List String) : ss.length < (Scanner.itemKinds ss).length := by
  cases ss with
  | nil => decide
  | cons s ss =>
    rw [Scanner.itemKinds, List.length_cons, List.length_cons, length_moreItemKinds]
    omega

theorem reads_content (v : Content) {n : Nat} (hfuel : (Scanner.contentKinds v).length < n) :
    Reads p (node n true true) (Scanner.contentKinds v) (contentEvents v) := by
  obtain ⟨n, rfl⟩ := Nat.exists_eq_add_of_lt hfuel
  cases v with
  | word s =>
    refine .of_cons fun m r s h => ⟨_, reads_nothing, ?_⟩
    rw [node_scalar _ true true h, String.ofList_toList]
    rfl
  | quoted s =>
    refine .of_cons fun m r s h => ⟨_, reads_nothing, ?_⟩
    rw [node_scalar _ true true h, String.ofList_toList]
    rfl
  | flow ss =>
    refine .of_cons fun m r s h => ⟨_, reads_items ss ?_ m, node_collection _ true rfl h⟩
    have hlen := length_lt_itemKinds ss
    simp only [Scanner.contentKinds, List.length_cons]
    omega

def beginsNode : TokenKind → Bool
  | .scalar _ _ | .flowSequenceStart | .blockSequenceStart | .blockMappingStart
  | .blockEntry => true
  | _ => false

theorem ReadsTo.blockMember {k : TokenKind} {n : Nat} (hk : beginsNode k = true) (behind : Mark)
    (h : ReadsTo E p (node n true true) (k :: ks) es) :
    ReadsTo E p (blockMember (n + 1) behind) (k :: ks) es := by
  intro ts rest s hts htokens hrest
  obtain ⟨m, ts', rfl, hts'⟩ := exists_token_cons hts
  obtain ⟨added, hadded, hE⟩ := h _ rest s hts htokens hrest
  have hnode : Reading.blockMember (n + 1) behind s = node n true true s := by
    rw [Reading.blockMember, bind_ok (peek_cons htokens)]
    cases k <;> first | rfl | cases hk
  exact ⟨added, hadded, hnode ▸ hE⟩

theorem blockMember_scalar (n : Nat) (behind : Mark) {style : ScalarStyle} {text : List Char}
    (h : s.tokens = ⟨.scalar style text, m⟩ :: r) :
    blockMember (n + 2) behind s = .ok () { s with
      tokens := r, events := ⟨.scalar none style (String.ofList text), m⟩ :: s.events } := by
  rw [blockMember, bind_ok (peek_cons h)]
  exact node_scalar n true true h

theorem readsTo_member {n : Nat} (start : Mark) (style : ScalarStyle) (key : String)
    (h : ∀ behind, ReadsTo E p (do blockMember (n + 2) behind; blockMapping (n + 2) start) ks es) :
    ReadsTo E p (blockMapping (n + 3) start) ([.key false, .scalar style key.toList, .value] ++ ks)
      ([.scalar none style key] ++ es) := by
  refine .step _ _ fun ts r s hts htokens => ?_
  obtain ⟨m₁, ts₁, rfl, hts₁⟩ := exists_token_cons hts
  obtain ⟨m₂, ts₂, rfl, hts₂⟩ := exists_token_cons hts₁
  obtain ⟨m₃, ts₃, rfl, hts₃⟩ := exists_token_cons hts₂
  obtain rfl := List.map_eq_nil_iff.1 hts₃
  refine ⟨_, [⟨.scalar none style key, m₂⟩], h (Token.behind ⟨.value, m₃⟩), rfl, ?_⟩
  rw [blockMapping, bind_ok (peek_cons htokens)]
  simp only
  rw [bind_ok (drop_cons htokens), bind_ok (blockMember_scalar n _ rfl), bind_ok (peek_cons rfl)]
  simp only
  rw [bind_ok (drop_cons rfl), String.ofList_toList]
  rfl

theorem reads_mapping_end {n : Nat} {start : Mark} :
    Reads p (blockMapping (n + 1) start) [.blockEnd] [.mappingEnd] := by
  refine .of_cons fun m r s h => ⟨_, reads_nothing, ?_⟩
  rw [blockMapping, bind_ok (peek_cons h)]
  simp only
  rw [bind_ok (emit_eq _ _ _)]
  exact drop_cons h

def fieldEvents (f : Field) : List EventKind := [.scalar none .plain f.key] ++ contentEvents f.value

theorem readsTo_fields {closing : List TokenKind} {N : Nat} {start : Mark}
    (hend : ∀ n, N ≤ n → ReadsTo E p (blockMapping n start) closing es) (hN : 3 ≤ N)
    (fs : List Field) {n : Nat} (hfuel : (fs.flatMap Scanner.fieldKinds).length + N ≤ n) :
    ReadsTo E p (blockMapping n start) (fs.flatMap Scanner.fieldKinds ++ closing)
      (fs.flatMap fieldEvents ++ es) := by
  induction fs generalizing n with
  | nil => exact hend n (by simpa using hfuel)
  | cons f fs ih =>
    simp only [List.flatMap_cons, List.length_append, Scanner.fieldKinds, List.length_cons,
      List.length_nil] at hfuel
    obtain ⟨n, rfl⟩ : ∃ k, n = k + 3 := ⟨n - 3, by omega⟩
    have hvalue : ∀ behind, Reads Anything (blockMember (n + 2) behind)
        (Scanner.contentKinds f.value) (contentEvents f.value) := by
      intro behind
      have hnode := reads_content (p := Anything) f.value (n := n + 1) (by omega)
      cases hf : f.value with
      | _ => rw [hf] at hnode; exact hnode.blockMember rfl behind
    have hall := readsTo_member start .plain f.key fun behind =>
      (hvalue behind).bind (ih (n := n + 2) (by omega)) fun _ _ _ _ => trivial
    simpa only [List.flatMap_cons, Scanner.fieldKinds, fieldEvents, List.append_assoc] using hall

def recordEvents (fs : List Field) : List EventKind :=
  .mappingStart none :: (fs.flatMap fieldEvents ++ [.mappingEnd])

theorem reads_record (fs : List Field) {n : Nat}
    (hfuel : (fs.flatMap Scanner.fieldKinds).length + 4 ≤ n) :
    Reads p (node n true false)
      (.blockMappingStart :: (fs.flatMap Scanner.fieldKinds ++ [.blockEnd])) (recordEvents fs) := by
  obtain ⟨n, rfl⟩ := Nat.exists_eq_add_of_le' (Nat.le_trans (Nat.le_add_left 4 _) hfuel)
  refine .of_cons fun m r s h => ⟨_, ?_, node_collection (n + 3) false rfl h⟩
  refine readsTo_fields (N := 3) (fun n hn => ?_) (Nat.le_refl 3) fs (by omega)
  obtain ⟨n, rfl⟩ := Nat.exists_eq_add_of_le' (Nat.le_trans (by decide : 1 ≤ 3) hn)
  exact reads_mapping_end

theorem ReadsTo.entry {f : Nat → Reading Unit} {n : Nat}
    (hentry : ∀ n m m' r s,
      s.tokens = ⟨.blockEntry, m⟩ :: ⟨.blockMappingStart, m'⟩ :: r →
      f (n + 1) s = (node n true false >>= fun _ => f n)
        { s with tokens := ⟨.blockMappingStart, m'⟩ :: r })
    (h : ReadsTo E p (node n true false >>= fun _ => f n) (.blockMappingStart :: ks) es) :
    ReadsTo E p (f (n + 1)) (.blockEntry :: .blockMappingStart :: ks) es := by
  intro ts rest s hts htokens hrest
  obtain ⟨m, ts₁, rfl, hts₁⟩ := exists_token_cons hts
  obtain ⟨m', ts₂, rfl, -⟩ := exists_token_cons hts₁
  obtain ⟨added, hadded, hE⟩ := h _ rest
    { s with tokens := ⟨.blockMappingStart, m'⟩ :: (ts₂ ++ rest) } hts₁ rfl hrest
  exact ⟨added, hadded, hentry n m m' (ts₂ ++ rest) s htokens ▸ hE⟩

theorem readsTo_records {f : Nat → Reading Unit} {closing : List TokenKind} {N : Nat}
    (hentry : ∀ n m m' r s,
      s.tokens = ⟨.blockEntry, m⟩ :: ⟨.blockMappingStart, m'⟩ :: r →
      f (n + 1) s = (node n true false >>= fun _ => f n)
        { s with tokens := ⟨.blockMappingStart, m'⟩ :: r })
    (hend : ∀ n, N ≤ n → ReadsTo E p (f n) closing es) (hN : 4 ≤ N) (rs : List (List Field))
    {n : Nat} (hfuel : (rs.flatMap Scanner.recordKinds).length + N ≤ n) :
    ReadsTo E p (f n) (rs.flatMap Scanner.recordKinds ++ closing)
      (rs.flatMap recordEvents ++ es) := by
  induction rs generalizing n with
  | nil => exact hend n (by simpa using hfuel)
  | cons fs rs ih =>
    simp only [List.flatMap_cons, List.length_append, Scanner.recordKinds, List.length_cons,
      List.length_nil] at hfuel
    obtain ⟨n, rfl⟩ : ∃ k, n = k + 1 := ⟨n - 1, by omega⟩
    have hrecord := (reads_record (p := Anything) fs (n := n) (by omega)).bind
      (ih (n := n) (by omega)) fun _ _ _ _ => trivial
    simp only [List.flatMap_cons, Scanner.recordKinds, List.cons_append, List.append_assoc]
      at hrecord ⊢
    exact .entry hentry hrecord

theorem blockSequence_entry (n : Nat) (start : Mark) {m' : Mark}
    (h : s.tokens = ⟨.blockEntry, m⟩ :: ⟨.blockMappingStart, m'⟩ :: r) :
    blockSequence (n + 1) start s =
      (node n true false >>= fun _ => blockSequence n start)
        { s with tokens := ⟨.blockMappingStart, m'⟩ :: r } := by
  rw [blockSequence, bind_ok (peek_cons h)]
  simp only
  rw [bind_ok (drop_cons h), bind_ok (peek_cons rfl)]
  simp only [reduceCtorEq, or_self, if_false]

theorem reads_sequence_end (n : Nat) (start : Mark) :
    Reads p (blockSequence (n + 1) start) [.blockEnd] [.sequenceEnd] := by
  refine .of_cons fun m r s h => ⟨_, reads_nothing, ?_⟩
  rw [blockSequence, bind_ok (peek_cons h)]
  simp only
  rw [bind_ok (emit_eq _ _ _)]
  exact drop_cons h

theorem indentlessSequence_entry (n : Nat) {m' : Mark}
    (h : s.tokens = ⟨.blockEntry, m⟩ :: ⟨.blockMappingStart, m'⟩ :: r) :
    indentlessSequence (n + 1) s = (node n true false >>= fun _ => indentlessSequence n)
      { s with tokens := ⟨.blockMappingStart, m'⟩ :: r } := by
  rw [indentlessSequence, bind_ok (peek_cons h)]
  simp only
  rw [bind_ok (drop_cons h), bind_ok (peek_cons rfl)]

def BeforeEnd (rest : List Token) : Prop := ∃ m r, rest = ⟨.blockEnd, m⟩ :: r

theorem reads_indentless_end (n : Nat) :
    Reads BeforeEnd (indentlessSequence (n + 1)) [] [.sequenceEnd] := by
  rintro ts rest s hts htokens ⟨m, r, rfl⟩
  obtain rfl := List.map_eq_nil_iff.1 hts
  refine ⟨[⟨.sequenceEnd, m⟩], rfl, ?_⟩
  rw [indentlessSequence, bind_ok (peek_cons htokens)]
  simp only
  obtain ⟨tokens, _, _, _, _, _⟩ := s
  obtain rfl : tokens = _ := htokens
  rfl

theorem readsTo_sequence (l : Layout) {rs : List (List Field)} {closing : List TokenKind} {N : Nat}
    (hindentless : l.column = 0 → ∀ n, N ≤ n → ReadsTo E p (indentlessSequence n) closing es)
    (hblock : l.column ≠ 0 → ∀ n start, N ≤ n → ReadsTo E p (blockSequence n start) closing es)
    (hN : 4 ≤ N) (hfirst : (rs.flatMap Scanner.recordKinds ++ closing).head? = some .blockEntry)
    {n : Nat} (hfuel : (rs.flatMap Scanner.recordKinds).length + N + 2 ≤ n) (behind : Mark) :
    ReadsTo E p (blockMember n behind)
      (Scanner.sequenceKinds l .blockSequenceStart ++
        (rs.flatMap Scanner.recordKinds ++ closing))
      (.sequenceStart none :: (rs.flatMap recordEvents ++ es)) := by
  obtain ⟨n, rfl⟩ : ∃ k, n = k + 2 := ⟨n - 2, by omega⟩
  unfold Scanner.sequenceKinds
  split
  case isTrue hzero =>
    have hrecords := readsTo_records (fun n _ _ _ _ => indentlessSequence_entry n)
      (hindentless hzero) hN rs (n := n) (by omega)
    obtain ⟨ks, hks⟩ := List.head?_eq_some_iff.1 hfirst
    rw [hks] at hrecords
    rw [List.nil_append, hks]
    refine ReadsTo.blockMember (n := n + 1) rfl behind ?_
    intro ts rest s hts htokens hrest
    obtain ⟨m, ts', rfl, -⟩ := exists_token_cons hts
    obtain ⟨added, hadded, hE⟩ := hrecords _ rest
      { s with events := ⟨.sequenceStart none, m⟩ :: s.events } hts htokens hrest
    refine ⟨⟨.sequenceStart none, m⟩ :: added, by rw [List.map_cons, hadded], ?_⟩
    rw [node_indentless n true htokens, List.reverse_cons, List.append_assoc]
    exact hE
  case isFalse hpos =>
    refine ReadsTo.blockMember (n := n + 1) rfl behind (.of_cons fun m r s h => ?_)
    have hrecords := readsTo_records (fun n _ _ _ _ => blockSequence_entry n m)
      (fun n => hblock hpos n m) hN rs (n := n) (by omega)
    exact ⟨_, hrecords, node_collection n true rfl h⟩

theorem reads_sequence (l : Layout) {rs : List (List Field)} (hne : rs ≠ []) {n : Nat}
    (hfuel : (rs.flatMap Scanner.recordKinds).length + 6 ≤ n) (behind : Mark) :
    Reads BeforeEnd (blockMember n behind)
      (Scanner.sequenceKinds l .blockSequenceStart ++ (rs.flatMap Scanner.recordKinds ++
        Scanner.sequenceKinds l .blockEnd))
      (.sequenceStart none :: (rs.flatMap recordEvents ++ [.sequenceEnd])) := by
  have hpred : ∀ n, 4 ≤ n → ∃ k, n = k + 1 := fun n hn => ⟨n - 1, by omega⟩
  refine readsTo_sequence (N := 4) l (fun hzero n hn => ?_) (fun hpos n start hn => ?_)
    (Nat.le_refl 4) ?_ hfuel behind
  · obtain ⟨n, rfl⟩ := hpred n hn
    rw [Scanner.sequenceKinds, if_pos hzero]
    exact reads_indentless_end n
  · obtain ⟨n, rfl⟩ := hpred n hn
    rw [Scanner.sequenceKinds, if_neg hpos]
    exact reads_sequence_end n start
  · obtain ⟨fs, rs, rfl⟩ := List.exists_cons_of_ne_nil hne
    rfl

def documentEvents (key : String) (rs : List (List Field)) : List EventKind :=
  .mappingStart none :: ([.scalar none .plain key] ++
    (.sequenceStart none :: (rs.flatMap recordEvents ++ [.sequenceEnd]) ++ [.mappingEnd]))

theorem reads_document (l : Layout) (key : String) {rs : List (List Field)} (hne : rs ≠ [])
    {n : Nat} (hn : (rs.flatMap Scanner.recordKinds).length + 8 ≤ n) :
    Reads p (node n true false)
      (.blockMappingStart :: ([.key false, .scalar .plain key.toList, .value] ++
        (Scanner.sequenceKinds l .blockSequenceStart ++ (rs.flatMap Scanner.recordKinds ++
          Scanner.sequenceKinds l .blockEnd) ++ [.blockEnd])))
      (documentEvents key rs) := by
  obtain ⟨n, rfl⟩ : ∃ k, n = k + 4 := ⟨n - 4, by omega⟩
  have hmember := fun start => readsTo_member (p := p) (n := n) start .plain key fun behind =>
    (reads_sequence l hne (by omega) behind).bind reads_mapping_end fun ts rest hts _ => by
      obtain ⟨m, ts', rfl, -⟩ := exists_token_cons hts
      exact ⟨m, _, rfl⟩
  exact .of_cons fun m r s h => ⟨_, hmember m, node_collection (n + 3) false rfl h⟩

theorem directives_none {kind : TokenKind} (h : s.tokens = ⟨kind, m⟩ :: r) (n : Nat)
    (hv : ∀ major minor, kind ≠ .versionDirective major minor)
    (ht : ∀ handle uri, kind ≠ .tagDirective handle uri) :
    directives (n + 1) false s = .ok () { s with
      handles := s.handles ++ defaultHandles.filter fun h => (s.handles.lookup h.1).isNone } := by
  rw [directives, bind_ok (peek_cons h)]
  cases kind <;> first | rfl | exact absurd rfl (hv _ _) | exact absurd rfl (ht _ _)

theorem firstDocument_mapping (h : s.tokens = ⟨.blockMappingStart, m⟩ :: r) (n : Nat)
    {handles : List (List Char × Bytes)} (hhandles : handles = s.handles ++
      defaultHandles.filter fun h => (s.handles.lookup h.1).isNone) :
    firstDocument (n + 1) s = (do node (n + 1) true false; discard peek) { s with handles } := by
  have hdirectives := directives_none h n (fun _ _ h => nomatch h) fun _ _ h => nomatch h
  rw [firstDocument, bind_ok (peek_cons h)]
  simp only
  rw [bind_ok hdirectives, ← hhandles]

theorem discard_peek (h : s.tokens = t :: r) : (discard peek : Reading Unit) s = .ok () s := by
  simp only [discard, Functor.discard, Functor.mapConst, EStateM.map, Function.comp, peek_cons h]

end Reading

theorem Document.ofTokens_eq (l : Layout) (key : String) {rs : List (List Field)} (hne : rs ≠ [])
    {ts : List Token} (hts : ts.map Token.kind = Scanner.documentKinds l key rs) :
    ∃ added : List Event, added.map Event.kind = Reading.documentEvents key rs ∧
      Document.ofTokens ts none = ⟨added, none, [], false⟩ := by
  have hkinds : Scanner.documentKinds l key rs =
      .blockMappingStart :: ([.key false, .scalar .plain key.toList, .value] ++
        (Scanner.sequenceKinds l .blockSequenceStart ++ (rs.flatMap Scanner.recordKinds ++
          Scanner.sequenceKinds l .blockEnd) ++ [.blockEnd])) ++ [.streamEnd] := by
    simp only [Scanner.documentKinds, List.append_assoc, List.cons_append, List.nil_append]
  rw [hkinds] at hts
  obtain ⟨ts₁, ts₂, rfl, hts₁, hts₂⟩ := List.map_eq_append_iff.1 hts
  obtain ⟨m, ts₂, rfl, hnil⟩ := Reading.exists_token_cons hts₂
  obtain rfl := List.map_eq_nil_iff.1 hnil
  obtain ⟨m₁, ts', hcons, -⟩ := Reading.exists_token_cons hts₁
  let ts := ts₁ ++ [⟨.streamEnd, m⟩]
  have hlen : (rs.flatMap Scanner.recordKinds).length + 6 ≤ ts.length := by
    rw [← List.length_map (f := Token.kind), hts]
    simp only [List.length_append, List.length_cons, List.length_nil]
    omega
  obtain ⟨added, hadded, hok⟩ := Reading.reads_document (p := Reading.Anything) l key hne
    (n := 2 * ts.length + 4) (by omega) ts₁ [⟨.streamEnd, m⟩]
    { tokens := ts, fault? := none, handles := Reading.defaultHandles } hts₁ rfl trivial
  have hdocument : Reading.firstDocument (2 * ts.length + 4) { tokens := ts, fault? := none } =
      (do Reading.node (2 * ts.length + 4) true false; discard Reading.peek)
        { tokens := ts, fault? := none, handles := Reading.defaultHandles } :=
    Reading.firstDocument_mapping (by simp only [ts, hcons]; rfl) _ rfl
  rw [Reading.bind_ok hok, Reading.discard_peek rfl] at hdocument
  refine ⟨added, hadded, ?_⟩
  rw [ofTokens, hdocument]
  simp

theorem Document.ofBytes_write (l : Layout) {key : String} (hkey : IsWord key)
    {rs : List (List Field)} (hne : rs ≠ []) (hrs : [] ∉ rs)
    (hplain : ∀ fs ∈ rs, ∀ f ∈ fs, f.IsPlain) :
    ∃ added : List Event, added.map Event.kind = Reading.documentEvents key rs ∧
      Document.ofBytes (Utf8.encodeChars (l.write key rs)) = ⟨added, none, [], false⟩ := by
  obtain ⟨ts, htokens, hts⟩ := tokens_write l hkey hne hrs hplain
  obtain ⟨added, hadded, hdocument⟩ := Document.ofTokens_eq l key hne hts
  refine ⟨added, hadded, ?_⟩
  rw [ofBytes, Source.ofBytes_encodeChars (isTextChar_of_mem_write l hkey hplain), htokens]
  exact hdocument

end ResourceManifest.Yaml
