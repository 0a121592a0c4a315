import Mathlib.Data.List.Forall2
import ResourceManifest.Proofs.Yaml.Events
import ResourceManifest.Yaml.Decode

set_option autoImplicit false

namespace ResourceManifest.Yaml

namespace Decoder

variable {α β : Type} {decode : Decoder α} {a b c : α} {k : EventKind} {ks : List EventKind}

def startsValue : EventKind → Bool
  | .scalar _ _ _ | .sequenceStart _ | .mappingStart _ => true
  | _ => false

/-- The decoder takes events of these kinds for the value, and they are not those of an alias. -/
def Decodes (decode : Decoder α) : List EventKind → α → Prop
  | [], _ => False
  | k :: ks, a => startsValue k = true ∧
      ∀ (m : Mark) (alias? : Option Mark) (d : Document) (p : Place) (jumps : Nat)
        (es rest : List Event), es.map Event.kind = ks →
        decode ⟨⟨k, m⟩, alias?⟩ d p ⟨es ++ rest, jumps⟩ = .ok (a, ⟨rest, jumps⟩)

theorem exists_event_cons {es : List Event} (h : es.map Event.kind = k :: ks) :
    ∃ m es', es = ⟨k, m⟩ :: es' ∧ es'.map Event.kind = ks := by
  obtain ⟨e, es', rfl, rfl, hes'⟩ := List.map_eq_cons_iff.1 h
  exact ⟨e.mark, es', rfl, hes'⟩

theorem next_cons {m : Mark} {d : Document} {p : Place} {rest : List Event} {jumps : Nat}
    (hk : startsValue k = true) :
    next decode d p ⟨⟨k, m⟩ :: rest, jumps⟩ = decode ⟨⟨k, m⟩, none⟩ d p ⟨rest, jumps⟩ := by
  cases k <;> first | rfl | cases hk

theorem Decodes.next (h : Decodes decode ks a) (d : Document) (p : Place) (jumps : Nat)
    (es rest : List Event) (hes : es.map Event.kind = ks) :
    Decoder.next decode d p ⟨es ++ rest, jumps⟩ = .ok (a, ⟨rest, jumps⟩) := by
  match ks, h with
  | k :: ks, ⟨hk, hdecode⟩ =>
    obtain ⟨m, es', rfl, hes'⟩ := exists_event_cons hes
    rw [List.cons_append, next_cons hk]
    exact hdecode m none d p jumps es' rest hes'

theorem Decodes.of_scalar {style : ScalarStyle} {s : String}
    (h : ∀ m alias? d p t, decode ⟨⟨.scalar none style s, m⟩, alias?⟩ d p t = .ok (a, t)) :
    Decodes decode [.scalar none style s] a := by
  refine ⟨rfl, fun m alias? d p jumps es rest hes => ?_⟩
  obtain rfl := List.map_eq_nil_iff.1 hes
  exact h m alias? d p ⟨rest, jumps⟩

theorem decodes_text (expected : String) (style : ScalarStyle) (s : String) :
    Decodes (text expected) [.scalar none style s] s :=
  .of_scalar fun _ _ _ _ _ => rfl

theorem decodes_bool (b : Bool) :
    Decodes bool [.scalar none .plain (if b then "true" else "false")] b :=
  .of_scalar fun m alias? d p t => by cases b <;> rfl

theorem decodes_variant {v : Variants α} (h : v.find (v.name a) = .ok a) (style : ScalarStyle) :
    Decodes (variant v) [.scalar none style (v.name a)] a :=
  .of_scalar fun m alias? d p t => by
    cases alias? <;> simp [variant, locatedAtAlias, localName?, h, mapError_ok]

theorem Decodes.map (h : Decodes decode ks a) (f : α → β) : Decodes (map f decode) ks (f a) := by
  match ks, h with
  | k :: ks, ⟨hk, hdecode⟩ =>
    refine ⟨hk, fun m alias? d p jumps es rest hes => ?_⟩
    rw [Decoder.map, hdecode m alias? d p jumps es rest hes]
    rfl

def isPresent : EventKind → Bool
  | .scalar none .plain t => !(t.isEmpty || isNull t)
  | .scalar (some _) .plain _ | .void => false
  | _ => true

theorem Decodes.option (h : Decodes decode (k :: ks) a) (hk : isPresent k = true) :
    Decodes (option decode) (k :: ks) (some a) := by
  refine ⟨h.1, fun m alias? d p jumps es rest hes => ?_⟩
  have hdecode := h.2 m none d p jumps es rest hes
  unfold Decoder.option
  rw [hdecode]
  match k, hk with
  | .scalar none .plain t, ht =>
    rw [isPresent, Bool.not_eq_true'] at ht
    simp [ht, Except.map]
  | .scalar none .singleQuoted _, _ | .scalar none .doubleQuoted _, _ | .scalar none .literal _, _
  | .scalar none .folded _, _ => rfl
  | .scalar (some _) .singleQuoted _, _ | .scalar (some _) .doubleQuoted _, _
  | .scalar (some _) .literal _, _ | .scalar (some _) .folded _, _ => rfl
  | .sequenceStart _, _ | .sequenceEnd, _ | .mappingStart _, _ | .mappingEnd, _ | .alias _, _ => rfl

theorem items_cons {m : Mark} {d : Document} {p : Place} {fuel i jumps : Nat} {es rest : List Event}
    (hk : startsValue k = true) :
    items decode d p (fuel + 1) i ⟨⟨k, m⟩ :: es ++ rest, jumps⟩ = (do
      let (a, s) ← Decoder.next decode d (.item p i) ⟨⟨k, m⟩ :: es ++ rest, jumps⟩
      let (more, s) ← items decode d p fuel (i + 1) s
      .ok (a :: more, s)) := by
  cases k <;> first | rfl | cases hk

theorem items_of_forall₂ {kss : List (List EventKind)} {as : List α}
    (h : List.Forall₂ (Decodes decode) kss as) (d : Document) (p : Place) (jumps : Nat) {fuel : Nat}
    (hfuel : as.length < fuel) (i : Nat) {es : List Event} (rest : List Event)
    (hes : es.map Event.kind = kss.flatten ++ [.sequenceEnd]) :
    items decode d p fuel i ⟨es ++ rest, jumps⟩ = .ok (as, ⟨rest, jumps⟩) := by
  induction h generalizing fuel i es with
  | nil =>
    obtain ⟨fuel, rfl⟩ := Nat.exists_eq_add_of_lt hfuel
    obtain ⟨m, es', rfl, hes'⟩ := exists_event_cons hes
    obtain rfl := List.map_eq_nil_iff.1 hes'
    rfl
  | @cons ks a kss as hitem _ ih =>
    obtain ⟨fuel, rfl⟩ : ∃ n, fuel = n + 1 := ⟨fuel - 1, by omega⟩
    rw [List.flatten_cons, List.append_assoc] at hes
    obtain ⟨es₁, es₂, rfl, hes₁, hes₂⟩ := List.map_eq_append_iff.1 hes
    have hnext := hitem.next d (.item p i) jumps es₁ (es₂ ++ rest) hes₁
    have hmore := ih (Nat.lt_of_succ_lt_succ hfuel) (i + 1) hes₂
    match ks, hitem with
    | k :: ks, ⟨hk, _⟩ =>
      obtain ⟨m, es', rfl, -⟩ := exists_event_cons hes₁
      rw [List.append_assoc, items_cons hk, hnext]
      simp only [bind, Except.bind, hmore]

theorem length_le_of_forall₂ {kss : List (List EventKind)} {as : List α}
    (h : List.Forall₂ (Decodes decode) kss as) : as.length ≤ kss.flatten.length := by
  induction h with
  | nil => exact Nat.le_refl 0
  | @cons ks _ _ _ hitem _ ih =>
    have hpos : 0 < ks.length := by
      match ks, hitem with
      | _ :: _, _ => exact Nat.succ_pos _
    rw [List.length_cons, List.flatten_cons, List.length_append]
    omega

theorem decodes_list {kss : List (List EventKind)} {as : List α}
    (h : List.Forall₂ (Decodes decode) kss as) :
    Decodes (list decode) (.sequenceStart none :: (kss.flatten ++ [.sequenceEnd])) as := by
  refine ⟨rfl, fun m alias? d p jumps es rest hes => ?_⟩
  have hlen : as.length < (es ++ rest).length + 1 := by
    have hes' := congrArg List.length hes
    have hle := length_le_of_forall₂ h
    simp only [List.length_map, List.length_append] at hes' ⊢
    omega
  have hitems := items_of_forall₂ h d p jumps hlen 0 rest hes
  simp only [list, located, hitems, mapError_ok]

/-- How the members of a mapping, each with the events of its value, add up to what is read. -/
inductive Gathers (r : Record α) : List (String × List EventKind) → α → α → Prop
  | nil (a : α) : Gathers r [] a a
  | cons {key : String} {ks : List EventKind} {members : List (String × List EventKind)}
      {a b c : α} {decode : Decoder α} (hkey : r.checkKey key = .ok ())
      (hmember : r.member key a = .ok (some decode)) (hvalue : Decodes decode ks b)
      (hmore : Gathers r members b c) : Gathers r ((key, ks) :: members) a c

def memberEvents (member : String × List EventKind) : List EventKind :=
  .scalar none .plain member.1 :: member.2

theorem length_le_flatMap_memberEvents (ms : List (String × List EventKind)) :
    ms.length ≤ (ms.flatMap memberEvents).length := by
  induction ms with
  | nil => exact Nat.le_refl 0
  | cons member ms ih =>
    rw [List.length_cons, List.flatMap_cons, List.length_append, memberEvents, List.length_cons]
    omega

theorem Gathers.members {r : Record α} {ms : List (String × List EventKind)} (h : Gathers r ms a b)
    (d : Document) (p : Place) (jumps : Nat) {fuel : Nat} (hfuel : ms.length < fuel)
    {es : List Event} (rest : List Event)
    (hes : es.map Event.kind = ms.flatMap memberEvents ++ [.mappingEnd]) :
    members r d p fuel a ⟨es ++ rest, jumps⟩ = .ok (b, ⟨rest, jumps⟩) := by
  induction h generalizing fuel es with
  | nil a =>
    obtain ⟨fuel, rfl⟩ := Nat.exists_eq_add_of_lt hfuel
    obtain ⟨m, es', rfl, hes'⟩ := exists_event_cons hes
    obtain rfl := List.map_eq_nil_iff.1 hes'
    rfl
  | @cons key ks ms a b c decode hkey hmember hvalue _ ih =>
    obtain ⟨fuel, rfl⟩ : ∃ n, fuel = n + 1 := ⟨fuel - 1, by omega⟩
    simp only [List.flatMap_cons, memberEvents, List.cons_append, List.append_assoc] at hes
    obtain ⟨m, es', rfl, hes'⟩ := exists_event_cons hes
    obtain ⟨es₁, es₂, rfl, hes₁, hes₂⟩ := List.map_eq_append_iff.1 hes'
    have hmore := ih (Nat.lt_of_succ_lt_succ hfuel) hes₂
    have hname : Decodes (fieldName r) [.scalar none .plain key] key :=
      .of_scalar fun m alias? d p t => by
        simp [fieldName, located, text, hkey, bind, Except.bind, mapError_ok]
    rw [List.cons_append, List.append_assoc]
    have hfirst := hname.next d p jumps [⟨_, m⟩] (es₁ ++ (es₂ ++ rest)) rfl
    have hsecond := hvalue.next d (.field p key) jumps es₁ (es₂ ++ rest) hes₁
    rw [List.singleton_append] at hfirst
    rw [Decoder.members]
    simp only [valuePlace, hfirst, bind, Except.bind, hmember, hsecond, hmore]

theorem Gathers.decodes {r : Record α} {ms : List (String × List EventKind)}
    (h : Gathers r ms r.empty b) :
    Decodes (record r) (.mappingStart none :: (ms.flatMap memberEvents ++ [.mappingEnd])) b := by
  refine ⟨rfl, fun m alias? d p jumps es rest hes => ?_⟩
  have hlen : ms.length < (es ++ rest).length + 1 := by
    have hes' := congrArg List.length hes
    have hle := length_le_flatMap_memberEvents ms
    simp only [List.length_map, List.length_append] at hes' ⊢
    omega
  have hmembers := h.members d p jumps hlen rest hes
  simp only [record, located, hmembers, mapError_ok]

def fieldMember (f : Field) : String × List EventKind := (f.key, Reading.contentEvents f.value)

theorem documentEvents_eq (key : String) (rs : List (List Field)) : Reading.documentEvents key rs =
    .mappingStart none :: ([(key, .sequenceStart none ::
      ((rs.map Reading.recordEvents).flatten ++ [.sequenceEnd]))].flatMap memberEvents ++
        [.mappingEnd]) := by
  simp only [Reading.documentEvents, memberEvents, List.flatMap_def, List.map_cons, List.map_nil,
    List.flatten_cons, List.flatten_nil, List.cons_append, List.nil_append, List.append_assoc]

theorem recordEvents_eq (fs : List Field) : Reading.recordEvents fs =
    .mappingStart none :: ((fs.map fieldMember).flatMap memberEvents ++ [.mappingEnd]) := by
  rw [List.flatMap_map]
  rfl

end Decoder

theorem decode_write {α : Type} {decoder : Decoder α} {a : α} (l : Layout) {key : String}
    (hkey : IsWord key) {rs : List (List Field)} (hne : rs ≠ []) (hrs : [] ∉ rs)
    (hplain : ∀ fs ∈ rs, ∀ f ∈ fs, f.IsPlain)
    (h : Decoder.Decodes decoder (Reading.documentEvents key rs) a) :
    decode decoder (Utf8.encodeChars (l.write key rs)) = .ok a := by
  obtain ⟨added, hadded, hdocument⟩ := Document.ofBytes_write l hkey hne hrs hplain
  have hnext := h.next ⟨added, none, [], false⟩ .top 0 added [] hadded
  rw [List.append_nil] at hnext
  simp only [decode, hdocument, hnext, bind, Except.bind, Bool.false_eq_true, if_false]

end ResourceManifest.Yaml
