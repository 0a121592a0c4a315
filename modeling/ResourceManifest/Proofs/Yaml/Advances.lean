import ResourceManifest.Yaml.Event

/-!
A document is read in one direction: whatever the tokens, and whether a reading ends well or is
interrupted, tokens are only taken from the front and events are only added. The events of a part
that has been read thus stand, whatever is behind it.
-/

set_option autoImplicit false

namespace ResourceManifest.Yaml

namespace Reading

variable {α β : Type}

def left : EStateM.Result Interruption Reader α → Reader
  | .ok _ s => s
  | .error _ s => s

structure Onward (s s' : Reader) : Prop where
  tokens : s'.tokens <:+ s.tokens
  events : s.events <:+ s'.events

namespace Onward

variable {s s' s'' : Reader}

theorem refl (s : Reader) : Onward s s := ⟨List.suffix_rfl, List.suffix_rfl⟩

theorem trans (h : Onward s s') (h' : Onward s' s'') : Onward s s'' :=
  ⟨h'.tokens.trans h.tokens, h.events.trans h'.events⟩

end Onward

def Advances (a : Reading α) : Prop := ∀ s, Onward s (left (a s))

namespace Advances

variable {a : Reading α} {f : α → Reading β}

theorem onward_bind (hf : ∀ v, Advances (f v)) (s : Reader) :
    Onward (left (a s)) (left ((a >>= f) s)) := by
  cases h : a s with
  | ok v s' =>
    have hbind : (a >>= f) s = f v s' := by simp only [Bind.bind, EStateM.bind, h]
    rw [hbind]
    exact hf v s'
  | error i s' =>
    have hbind : (a >>= f) s = .error i s' := by simp only [Bind.bind, EStateM.bind, h]
    rw [hbind]
    exact .refl s'

theorem bind (ha : Advances a) (hf : ∀ v, Advances (f v)) : Advances (a >>= f) :=
  fun s => (ha s).trans (onward_bind hf s)

end Advances

theorem advances_pure (v : α) : Advances (pure v : Reading α) := Onward.refl

theorem advances_throw (i : Interruption) : Advances (throw i : Reading α) := Onward.refl

theorem advances_misplaced (p : Problem) (m : Mark) (context : Option (Activity × Mark)) :
    Advances (misplaced p m context : Reading α) := advances_throw _

theorem advances_unless (isWrong : Prop) [Decidable isWrong] {p : Problem} {m : Mark}
    {context : Option (Activity × Mark)} {a : Reading α} (ha : Advances a) :
    Advances (do
      if isWrong then (misplaced p m context : Reading Unit)
      a) := by
  split
  · exact (advances_misplaced _ _ _).bind fun _ => ha
  · exact ha

theorem advances_get : Advances (get : Reading Reader) := Onward.refl

theorem advances_peek : Advances peek := by
  refine advances_get.bind fun s => ?_
  split
  · exact advances_pure _
  · exact advances_throw _
  · exact advances_pure _

theorem advances_discard : Advances (discard peek) :=
  advances_peek.bind fun _ => advances_pure ()

theorem advances_drop : Advances drop := fun s => ⟨List.drop_suffix 1 s.tokens, List.suffix_rfl⟩

theorem advances_emit (kind : EventKind) (m : Mark) : Advances (emit kind m) :=
  fun _ => ⟨List.suffix_rfl, List.suffix_cons _ _⟩

theorem advances_emitNothing (m : Mark) : Advances (emitNothing m) := advances_emit _ m

theorem advances_addAnchor (name? : Option (List Char)) : Advances (addAnchor name?) := by
  cases name? with
  | none => exact advances_pure ()
  | some name => exact fun _ => ⟨List.suffix_rfl, List.suffix_rfl⟩

theorem advances_emitAlias (name : List Char) (m : Mark) : Advances (emitAlias name m) := by
  refine advances_get.bind fun s => ?_
  split
  · exact advances_emit _ m
  · exact advances_throw _

theorem advances_announce (name? : Option (List Char)) (kind : EventKind) (m : Mark) :
    Advances (do addAnchor name?; emit kind m) :=
  (advances_addAnchor name?).bind fun _ => advances_emit kind m

theorem advances_properties : Advances properties := by
  refine advances_peek.bind fun t => ?_
  split
  · refine advances_drop.bind fun _ => advances_peek.bind fun t => ?_
    split
    · exact advances_drop.bind fun _ => advances_pure _
    · exact advances_pure _
  · refine advances_drop.bind fun _ => advances_peek.bind fun t => ?_
    split
    · exact advances_drop.bind fun _ => advances_pure _
    · exact advances_pure _
  · exact advances_pure _

theorem advances_resolveTag (p : Properties) (m : Mark) : Advances (resolveTag p m) := by
  unfold resolveTag
  split
  · exact advances_pure _
  · exact advances_pure _
  · refine advances_get.bind fun s => ?_
    split
    · exact advances_pure _
    · exact advances_misplaced _ _ _

structure AllAdvance (n : Nat) : Prop where
  node : ∀ block indentless, Advances (node n block indentless)
  blockSequence : ∀ m, Advances (blockSequence n m)
  indentlessSequence : Advances (indentlessSequence n)
  blockMember : ∀ m, Advances (blockMember n m)
  blockMapping : ∀ m, Advances (blockMapping n m)
  flowValue : ∀ close, Advances (flowValue n close)
  flowPair : Advances (flowPair n)
  flowSequence : ∀ m isFirst, Advances (flowSequence n m isFirst)
  flowMapping : ∀ m isFirst, Advances (flowMapping n m isFirst)

namespace AllAdvance

variable {n : Nat}

theorem node_succ (h : AllAdvance n) (block indentless : Bool) :
    Advances (Reading.node (n + 1) block indentless) := by
  rw [Reading.node]
  refine advances_peek.bind fun first => ?_
  split
  · exact (advances_emitAlias _ _).bind fun _ => advances_drop
  · refine advances_properties.bind fun p => (advances_resolveTag p _).bind fun tag? =>
      advances_peek.bind fun t => ?_
    have hbehind : ∀ kind (a : Reading Unit), Advances a → Advances (do
        (do addAnchor p.anchor?; emit kind first.mark)
        drop
        a) :=
      fun kind a ha => (advances_announce _ kind _).bind fun _ => advances_drop.bind fun _ => ha
    split
    · exact advances_drop.bind fun _ => advances_announce _ _ _
    · exact hbehind _ _ (h.flowSequence _ _)
    · exact hbehind _ _ (h.flowMapping _ _)
    · split
      · exact (advances_announce _ _ _).bind fun _ => h.indentlessSequence
      · split
        · exact hbehind _ _ (h.blockSequence _)
        · split
          · exact hbehind _ _ (h.blockMapping _)
          · split
            · exact advances_announce _ _ _
            · exact advances_misplaced _ _ _

theorem blockSequence_succ (h : AllAdvance n) (m : Mark) :
    Advances (Reading.blockSequence (n + 1) m) := by
  rw [Reading.blockSequence]
  refine advances_peek.bind fun t => ?_
  split
  · refine advances_drop.bind fun _ => advances_peek.bind fun t => ?_
    split
    · exact (advances_emitNothing _).bind fun _ => h.blockSequence m
    · exact (h.node _ _).bind fun _ => h.blockSequence m
  · exact (advances_emit _ _).bind fun _ => advances_drop
  · exact advances_misplaced _ _ _

theorem indentlessSequence_succ (h : AllAdvance n) :
    Advances (Reading.indentlessSequence (n + 1)) := by
  rw [Reading.indentlessSequence]
  refine advances_peek.bind fun t => ?_
  split
  · refine advances_drop.bind fun _ => advances_peek.bind fun t => ?_
    split
    case h_5 => exact (h.node _ _).bind fun _ => h.indentlessSequence
    all_goals exact (advances_emitNothing _).bind fun _ => h.indentlessSequence
  · exact advances_emit _ _

theorem blockMember_succ (h : AllAdvance n) (m : Mark) :
    Advances (Reading.blockMember (n + 1) m) := by
  rw [Reading.blockMember]
  refine advances_peek.bind fun t => ?_
  split
  case h_4 => exact h.node _ _
  all_goals exact advances_emitNothing m

theorem blockMapping_succ (h : AllAdvance n) (m : Mark) :
    Advances (Reading.blockMapping (n + 1) m) := by
  rw [Reading.blockMapping]
  refine advances_peek.bind fun t => ?_
  split
  · refine advances_drop.bind fun _ => (h.blockMember _).bind fun _ =>
      advances_peek.bind fun t => ?_
    split
    · exact advances_drop.bind fun _ => (h.blockMember _).bind fun _ => h.blockMapping m
    · exact (advances_emitNothing _).bind fun _ => h.blockMapping m
  · exact (advances_emit _ _).bind fun _ => advances_drop
  · exact advances_misplaced _ _ _

theorem flowValue_succ (h : AllAdvance n) (close : TokenKind) :
    Advances (Reading.flowValue (n + 1) close) := by
  rw [Reading.flowValue]
  refine advances_peek.bind fun t => ?_
  split
  · refine advances_drop.bind fun _ => advances_peek.bind fun t => ?_
    split
    · exact advances_emitNothing _
    · exact h.node _ _
  · exact advances_emitNothing _

theorem flowPair_succ (h : AllAdvance n) : Advances (Reading.flowPair (n + 1)) := by
  have hend : Advances (do Reading.flowValue n .flowSequenceEnd
                           Reading.emit .mappingEnd (← Reading.peek).mark) :=
    (h.flowValue _).bind fun _ => advances_peek.bind fun t => advances_emit _ t.mark
  rw [Reading.flowPair]
  refine advances_peek.bind fun t => ?_
  split
  case h_4 => exact (h.node _ _).bind fun _ => hend
  all_goals exact advances_drop.bind fun _ => (advances_emitNothing _).bind fun _ => hend

theorem advances_sign (isNext : Prop) [Decidable isNext] {p : Problem}
    {context : Option (Activity × Mark)} {a : Reading Unit} (ha : Advances a) :
    Advances (do
      if isNext then
        let t ← peek
        if t.kind = .flowEntry then drop else misplaced p t.mark context
      a) := by
  split
  · refine advances_peek.bind fun t => ?_
    split
    · exact advances_drop.bind fun _ => ha
    · exact (advances_misplaced _ _ _).bind fun _ => ha
  · exact ha

theorem flowSequence_succ (h : AllAdvance n) (m : Mark) (isFirst : Bool) :
    Advances (Reading.flowSequence (n + 1) m isFirst) := by
  rw [Reading.flowSequence]
  refine advances_peek.bind fun t => advances_sign _ (advances_peek.bind fun t => ?_)
  split
  · exact (advances_emit _ _).bind fun _ => advances_drop
  · exact (advances_emit _ _).bind fun _ => advances_drop.bind fun _ =>
      h.flowPair.bind fun _ => h.flowSequence m false
  · exact (h.node _ _).bind fun _ => h.flowSequence m false

theorem flowMapping_succ (h : AllAdvance n) (m : Mark) (isFirst : Bool) :
    Advances (Reading.flowMapping (n + 1) m isFirst) := by
  have hvalue : Advances (do Reading.flowValue n .flowMappingEnd; Reading.flowMapping n m false) :=
    (h.flowValue _).bind fun _ => h.flowMapping m false
  rw [Reading.flowMapping]
  refine advances_peek.bind fun t => advances_sign _ (advances_peek.bind fun t => ?_)
  split
  · exact (advances_emit _ _).bind fun _ => advances_drop
  · refine advances_drop.bind fun _ => advances_peek.bind fun t => ?_
    split
    case h_4 => exact (h.node _ _).bind fun _ => hvalue
    all_goals exact (advances_emitNothing _).bind fun _ => hvalue
  · exact (h.node _ _).bind fun _ => advances_peek.bind fun t => (advances_emitNothing _).bind
      fun _ => h.flowMapping m false

end AllAdvance

theorem allAdvance (n : Nat) : AllAdvance n := by
  induction n with
  | zero => constructor <;> intros <;> exact advances_pure ()
  | succ n ih =>
    exact {
      node := ih.node_succ
      blockSequence := ih.blockSequence_succ
      indentlessSequence := ih.indentlessSequence_succ
      blockMember := ih.blockMember_succ
      blockMapping := ih.blockMapping_succ
      flowValue := ih.flowValue_succ
      flowPair := ih.flowPair_succ
      flowSequence := ih.flowSequence_succ
      flowMapping := ih.flowMapping_succ }

theorem advances_addHandle (handle : List Char) (uri : Bytes) (m : Mark) :
    Advances (addHandle handle uri m) := by
  refine advances_get.bind fun s => ?_
  split
  · exact advances_misplaced _ _ _
  · exact fun _ => ⟨List.suffix_rfl, List.suffix_rfl⟩

theorem advances_directives (n : Nat) (versioned : Bool) : Advances (directives n versioned) := by
  induction n generalizing versioned with
  | zero => exact advances_pure ()
  | succ n ih =>
    rw [directives]
    refine advances_peek.bind fun t => ?_
    have hmore : Advances (do drop; directives n true) := advances_drop.bind fun _ => ih true
    split
    · split
      · exact (advances_misplaced _ _ _).bind fun _ => hmore
      · split
        · exact (advances_misplaced _ _ _).bind fun _ => hmore
        · exact hmore
    · exact (advances_addHandle _ _ _).bind fun _ => advances_drop.bind fun _ => ih versioned
    · exact fun _ => ⟨List.suffix_rfl, List.suffix_rfl⟩

theorem advances_firstDocument (n : Nat) : Advances (firstDocument n) := by
  have hnode : Advances (do node n true false; discard peek) :=
    ((allAdvance n).node true false).bind fun _ => advances_discard
  rw [firstDocument]
  refine advances_peek.bind fun t => ?_
  split
  case h_1 => exact advances_emit _ _
  case h_5 => exact (advances_directives n false).bind fun _ => hnode
  all_goals
    refine (advances_directives n false).bind fun _ => advances_peek.bind fun t =>
      advances_unless _ (advances_drop.bind fun _ => advances_peek.bind fun t => ?_)
    split
    case h_6 => exact hnode
    all_goals exact (advances_emitNothing _).bind fun _ => advances_discard

end Reading

end ResourceManifest.Yaml
