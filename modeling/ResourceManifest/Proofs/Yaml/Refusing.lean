import ResourceManifest.Proofs.Yaml.Decoding
import ResourceManifest.Proofs.Yaml.Openings

set_option autoImplicit false

namespace ResourceManifest.Yaml

namespace Decoder

variable {α β : Type} {decode : Decoder α} {Q : α → Prop} {k : EventKind} {ks : List EventKind}

/-- For events that begin like this, every value satisfies `Q` and takes just that beginning. -/
def Allows (decode : Decoder α) (Q : α → Prop) : List EventKind → Prop
  | [] => False
  | k :: ks => startsValue k = true ∧
      ∀ (m : Mark) (alias? : Option Mark) (d : Document) (p : Place) (jumps : Nat)
        (es rest : List Event) (x : α × Progress), es.map Event.kind = ks →
        decode ⟨⟨k, m⟩, alias?⟩ d p ⟨es ++ rest, jumps⟩ = .ok x → Q x.1 ∧ x.2 = ⟨rest, jumps⟩

abbrev Takes (decode : Decoder α) : List EventKind → Prop := Allows decode fun _ => True

abbrev Refuses (decode : Decoder α) : List EventKind → Prop := Allows decode fun _ => False

theorem Allows.next (h : Allows decode Q ks) {d : Document} {p : Place} {jumps : Nat}
    {es rest : List Event} {x : α × Progress} (hes : es.map Event.kind = ks)
    (hx : Decoder.next decode d p ⟨es ++ rest, jumps⟩ = .ok x) :
    Q x.1 ∧ x.2 = ⟨rest, jumps⟩ := by
  match ks, h with
  | k :: ks, ⟨hk, hdecode⟩ =>
    obtain ⟨m, es', rfl, hes'⟩ := exists_event_cons hes
    rw [List.cons_append, next_cons hk] at hx
    exact hdecode m none d p jumps es' rest x hes' hx

theorem Decodes.takes {a : α} (h : Decodes decode ks a) : Takes decode ks := by
  match ks, h with
  | k :: ks, ⟨hk, hdecode⟩ =>
    refine ⟨hk, fun m alias? d p jumps es rest x hes hx => ?_⟩
    obtain rfl := Except.ok.inj ((hdecode m alias? d p jumps es rest hes).symm.trans hx)
    exact ⟨trivial, rfl⟩

theorem Allows.of_error (hk : startsValue k = true)
    (h : ∀ m alias? d p s, ∃ f, decode ⟨⟨k, m⟩, alias?⟩ d p s = .error f) :
    Allows decode Q (k :: ks) := by
  refine ⟨hk, fun m alias? d p jumps es rest x hes hx => ?_⟩
  obtain ⟨f, hf⟩ := h m alias? d p ⟨es ++ rest, jumps⟩
  cases hf.symm.trans hx

theorem Takes.of_first (hk : startsValue k = true)
    (h : ∀ m alias? d p s x, decode ⟨⟨k, m⟩, alias?⟩ d p s = .ok x → x.2 = s) :
    Takes decode [k] := by
  refine ⟨hk, fun m alias? d p jumps es rest x hes hx => ⟨trivial, ?_⟩⟩
  obtain rfl := List.map_eq_nil_iff.1 hes
  exact h m alias? d p _ x hx

theorem Allows.map {R : β → Prop} {f : α → β} (h : Allows decode Q ks)
    (hf : ∀ a, Q a → R (f a)) : Allows (Decoder.map f decode) R ks := by
  match ks, h with
  | k :: ks, ⟨hk, hdecode⟩ =>
    refine ⟨hk, fun m alias? d p jumps es rest x hes hx => ?_⟩
    obtain ⟨y, hy, rfl⟩ := map_eq_ok hx
    obtain ⟨hQ, hrest⟩ := hdecode m alias? d p jumps es rest y hes hy
    exact ⟨hf y.1 hQ, hrest⟩

theorem Takes.option (h : Takes decode (k :: ks)) (hks : isPresent k = false → ks = []) :
    Takes (option decode) (k :: ks) := by
  refine ⟨h.1, fun m alias? d p jumps es rest x hes hx => ⟨trivial, ?_⟩⟩
  have hpresent : ∀ x, (decode ⟨⟨k, m⟩, none⟩ d p ⟨es ++ rest, jumps⟩).map
      (fun y => (some y.1, y.2)) = .ok x → x.2 = ⟨rest, jumps⟩ := by
    intro x hx
    obtain ⟨y, hy, rfl⟩ := map_eq_ok hx
    exact (h.2 m none d p jumps es rest y hes hy).2
  have hnothing : isPresent k = false → es = [] := by
    intro hk
    obtain rfl := hks hk
    exact List.map_eq_nil_iff.1 hes
  simp only [Decoder.option] at hx
  split at hx
  · split at hx
    · exact hpresent x hx
    · obtain rfl := hnothing rfl
      split at hx
      · obtain rfl := Except.ok.inj hx
        rfl
      · cases hx
  · split at hx
    case isTrue hnull =>
      obtain rfl := hnothing (by rw [isPresent, hnull]; rfl)
      obtain rfl := Except.ok.inj hx
      rfl
    case isFalse => exact hpresent x hx
  · cases h.1
  · exact hpresent x hx

theorem takes_content {decode : Decoder α}
    (hscalar : ∀ style s, Takes decode [.scalar none style s])
    (hlist : ∀ ss, Takes decode (Reading.contentEvents (.flow ss))) (v : Content) :
    Takes decode (Reading.contentEvents v) := by
  cases v with
  | word s => exact hscalar .plain s
  | quoted s => exact hscalar .doubleQuoted s
  | flow ss => exact hlist ss

theorem takes_text (expected : String) (v : Content) :
    Takes (text expected) (Reading.contentEvents v) :=
  takes_content (fun style s => (decodes_text expected style s).takes)
    (fun _ => .of_error rfl fun _ _ _ _ _ => ⟨_, rfl⟩) v

theorem takes_bool (v : Content) : Takes bool (Reading.contentEvents v) := by
  refine takes_content (fun style s => .of_first rfl fun m alias? d p s x hx => ?_)
    (fun _ => .of_error rfl fun _ _ _ _ _ => ⟨_, rfl⟩) v
  have hx := mapError_eq_ok hx
  simp only at hx
  split at hx
  · obtain rfl := Except.ok.inj hx
    rfl
  · cases hx

theorem locatedAtAlias_eq_ok {e : First} {d : Document} {p : Place} {s : Progress}
    {x : α × Progress} (h : locatedAtAlias decode e d p s = .ok x) : decode e d p s = .ok x := by
  unfold locatedAtAlias at h
  split at h
  · exact mapError_eq_ok h
  · exact h

theorem takes_variant (vs : Variants α) (v : Content) :
    Takes (variant vs) (Reading.contentEvents v) := by
  refine takes_content (fun style s => .of_first rfl fun m alias? d p t x hx => ?_)
    (fun ss => .of_error rfl fun m alias? d p t => ?_) v
  · have hx := locatedAtAlias_eq_ok hx
    simp only [localName?] at hx
    split at hx
    · obtain rfl := Except.ok.inj hx
      rfl
    · cases hx
  · cases alias? <;> exact ⟨_, rfl⟩

theorem takes_option (h : ∀ v, Takes decode (Reading.contentEvents v)) (v : Content) :
    Takes (option decode) (Reading.contentEvents v) := by
  cases v with
  | word s => exact (h (.word s)).option fun _ => rfl
  | quoted s => exact (h (.quoted s)).option fun _ => rfl
  | flow ss => exact (h (.flow ss)).option fun hnull => nomatch hnull

theorem Allows.items {d : Document} {p : Place} {jumps fuel i : Nat} {es rest : List Event}
    {x : List α × Progress} (h : Allows decode Q ks) (hes : es.map Event.kind = ks)
    (hx : items decode d p fuel i ⟨es ++ rest, jumps⟩ = .ok x) :
    ∃ n a y, Q a ∧ items decode d p n (i + 1) ⟨rest, jumps⟩ = .ok y := by
  cases fuel with
  | zero => cases hx
  | succ n =>
    have hnext : ∀ y, Decoder.next decode d (.item p i) ⟨es ++ rest, jumps⟩ = .ok y →
        Q y.1 ∧ y.2 = ⟨rest, jumps⟩ := fun _ => h.next hes
    match ks, h with
    | k :: ks, ⟨hk, _⟩ =>
      obtain ⟨m, es', rfl, -⟩ := exists_event_cons hes
      rw [items_cons hk] at hx
      obtain ⟨⟨a, s⟩, ha, hx⟩ := bind_eq_ok hx
      obtain ⟨hQ, rfl⟩ := hnext _ ha
      obtain ⟨y, hy, -⟩ := bind_eq_ok hx
      exact ⟨n, a, y, hQ, hy⟩

theorem items_ne_ok {kss : List (List EventKind)} (hkss : ∀ ks ∈ kss, Takes decode ks)
    (hks : Refuses decode ks) (d : Document) (p : Place) (jumps fuel i : Nat) {es : List Event}
    (rest : List Event) (hes : es.map Event.kind = kss.flatten ++ ks) (x : List α × Progress) :
    items decode d p fuel i ⟨es ++ rest, jumps⟩ ≠ .ok x := by
  intro hx
  induction kss generalizing fuel i es x with
  | nil =>
    obtain ⟨-, -, -, hfalse, -⟩ := hks.items hes hx
    exact hfalse
  | cons ls kss ih =>
    rw [List.flatten_cons, List.append_assoc] at hes
    obtain ⟨es₁, es₂, rfl, hes₁, hes₂⟩ := List.map_eq_append_iff.1 hes
    rw [List.append_assoc] at hx
    obtain ⟨n, -, y, -, hy⟩ := (hkss ls List.mem_cons_self).items hes₁ hx
    exact ih (fun ks h => hkss ks (List.mem_cons_of_mem ls h)) n (i + 1) hes₂ y hy

theorem refuses_list {kss : List (List EventKind)} (hkss : ∀ ks ∈ kss, Takes decode ks)
    (hks : Refuses decode ks) :
    Refuses (list decode) (.sequenceStart none :: (kss.flatten ++ ks)) := by
  refine ⟨rfl, fun m alias? d p jumps es rest x hes hx => ?_⟩
  exact absurd (mapError_eq_ok hx) (items_ne_ok hkss hks d p jumps _ 0 rest hes x)

section Members

variable {r : Record α} {d : Document} {p : Place} {jumps : Nat} {a : α} {m : Mark}
  {style : ScalarStyle} {key : String} {rest : List Event}

theorem next_fieldName_eq_ok {x : String × Progress} (hx : Decoder.next (fieldName r) d p
    ⟨⟨.scalar none style key, m⟩ :: rest, jumps⟩ = .ok x) :
    r.checkKey key = .ok () ∧ x = (key, ⟨rest, jumps⟩) := by
  obtain ⟨y, hy, hx⟩ := bind_eq_ok (mapError_eq_ok hx)
  obtain rfl := Except.ok.inj hy
  cases hcheck : r.checkKey key with
  | ok u =>
    simp only [hcheck] at hx
    exact ⟨rfl, (Except.ok.inj hx).symm⟩
  | error c =>
    simp only [hcheck] at hx
    cases hx

theorem members_key {fuel : Nat} {x : α × Progress}
    (hkey : r.checkKey key = .ok () → r.member key a ≠ .ok none)
    (hx : members r d p fuel a ⟨⟨.scalar none style key, m⟩ :: rest, jumps⟩ = .ok x) :
    ∃ n decode y, r.checkKey key = .ok () ∧ r.member key a = .ok (some decode) ∧
      Decoder.next decode d (.field p key) ⟨rest, jumps⟩ = .ok y ∧
      members r d p n y.1 y.2 = .ok x := by
  cases fuel with
  | zero => cases hx
  | succ n =>
    rw [members] at hx
    obtain ⟨y, hy, hx⟩ := bind_eq_ok hx
    obtain ⟨hcheck, rfl⟩ := next_fieldName_eq_ok hy
    simp only at hx
    split at hx
    case h_1 => cases hx
    case h_2 hnone => exact absurd hnone (hkey hcheck)
    case h_3 decode hmember =>
      obtain ⟨y, hy, hx⟩ := bind_eq_ok hx
      exact ⟨n, decode, y, hcheck, hmember, hy, hx⟩

theorem refuses_record (hmember : r.member key r.empty = .ok (some decode))
    (hks : Refuses decode ks) :
    Refuses (record r) (.mappingStart none :: .scalar none style key :: ks) := by
  refine ⟨rfl, fun m alias? d p jumps es rest x hes hx => ?_⟩
  obtain ⟨m', es', rfl, hes'⟩ := exists_event_cons hes
  have hx := mapError_eq_ok hx
  obtain ⟨n, decode', y, -, hmember', hy, -⟩ := members_key (fun _ => by simp [hmember]) hx
  obtain rfl := Option.some.inj (Except.ok.inj (hmember.symm.trans hmember'))
  exact absurd (hks.next hes' hy).1 id

end Members

end Decoder

theorem isWell_of_decode {α : Type} {decoder : Decoder α} {bs : Bytes} {a : α}
    (h : decode decoder bs = .ok a) :
    let d := Document.ofBytes bs
    d.IsWell ∧ ∃ s, decoder.next d .top ⟨d.events, 0⟩ = .ok (a, s) := by
  intro d
  obtain ⟨⟨b, s⟩, hnext, h⟩ := bind_eq_ok h
  simp only at h
  split at h
  · cases h
  case h_2 hinterruption =>
    split at h
    · cases h
    case isFalse hsuccessor =>
      obtain rfl := Except.ok.inj h
      exact ⟨⟨hinterruption, Bool.eq_false_iff.2 hsuccessor⟩, s, hnext⟩

theorem decode_writeTo {α : Type} {decoder : Decoder α} (l : Layout) {key : String}
    {rs : List (List Field)} {fs : List Field} {k : Key} {c : Char} {r : List Char}
    (hkey : IsWord key) (hrs : [] ∉ rs) (hplain : ∀ fs' ∈ rs ++ [fs], ∀ f ∈ fs', f.IsPlain)
    (hk : k.IsPlain) (hc : isGap c = true) (hr : ∀ d ∈ c :: r, isTextChar d = true)
    (h : Decoder.Refuses decoder (Reading.openingEvents key rs ++ Reading.keyEvents fs k)) :
    ∃ f, decode decoder (Utf8.encodeChars (l.writeTo key rs fs k (c :: r))) = .error f := by
  cases hdecode : decode decoder (Utf8.encodeChars (l.writeTo key rs fs k (c :: r))) with
  | error f => exact ⟨f, rfl⟩
  | ok a =>
    obtain ⟨hwell, s, hnext⟩ := isWell_of_decode hdecode
    obtain ⟨added, later, hadded, hevents⟩ :=
      Document.ofBytes_writeTo l hkey hrs hplain hk hc hr hwell
    rw [hevents] at hnext
    exact absurd (h.next hadded hnext).1 id

end ResourceManifest.Yaml
