import ResourceManifest.Proofs.Yaml.Scans

set_option autoImplicit false

namespace ResourceManifest.Yaml

namespace Scanner

def resting (rest : List Char) (m : Mark) (given margin : Nat) (margins : List Nat)
    (keyAllowed : Bool) : Scanner :=
  { cursor := ⟨rest, m, none⟩, given, margin, margins, keyAllowed }

variable {rest r : List Char} {m : Mark} {g M n : Nat} {N : List Nat} {b : Bool} {c : Char}
  {s : Scanner}

theorem unindent_of_le (h : s.margin ≤ n) : s.unindent n = s := by
  unfold unindent
  split
  · rfl
  · cases s.margins with
    | nil => rfl
    | cons outer ms => rw [closeTo, if_neg (by omega)]

theorem noKeys_resting (ws : List Token) :
    NoKeys { resting rest m g M N b with waiting := ws } :=
  ⟨rfl, fun _ hk => by cases hk⟩

theorem dropPastKeys_resting :
    (resting rest m g M N b).dropPastKeys = .ok (resting rest m g M N b) :=
  (noKeys_resting []).dropPastKeys

theorem scans_space (hw : s.waiting = []) (he : s.ended = false)
    (hcur : s.cursor = ⟨' ' :: r, m, none⟩) :
    Scans 0 s [] { s with cursor := ⟨r, m.right, none⟩ } :=
  .of_fetch_eq hw hw he he (fetch_eq_of_skipToToken_eq (skipToToken_space hcur))

theorem scans_lineFeed :
    Scans 0 (resting ('\n' :: r) m g M N b) [] (resting r (m.down 1) g M N true) :=
  .of_fetch_eq rfl rfl rfl rfl (fetch_eq_of_skipToToken_eq (skipToToken_lineFeed rfl rfl))

theorem scans_spaces (k : Nat) :
    Scans 0 (resting (List.replicate k ' ' ++ r) m g M N b) []
      (resting r (m.right k) g M N b) := by
  induction k generalizing m with
  | zero => exact .refl _
  | succ k ih =>
    rw [List.replicate_succ, List.cons_append, Nat.add_comm k 1, ← Mark.right_right]
    have hspace := scans_space
      (s := resting (' ' :: (List.replicate k ' ' ++ r)) m g M N b) rfl rfl rfl
    exact hspace.append ih

theorem quotedScalar_quote (l : Layout) (s : String) :
    Yaml.quotedScalar ⟨l.quote s ++ r, m, none⟩ false =
      .ok (.scalar .doubleQuoted s.toList, ⟨r, m.right (l.quote s).length, none⟩) := by
  have hread : readQuoted none m false (s.toList.flatMap l.escape ++ '"' :: r) m.right .none [] =
      .ok ⟨s.toList, r, m.right.right ((s.toList.flatMap l.escape).length + 1), false⟩ :=
    readQuoted_escape l s.toList (Nat.succ_pos _) trivial
  have hlen : (l.quote s).length = 1 + ((s.toList.flatMap l.escape).length + 1) := by
    simp [Layout.quote]
    omega
  rw [hlen, ← Mark.right_right]
  simp [Yaml.quotedScalar, Cursor.skip, Cursor.need, look_none, Layout.quote, hread, bind,
    Except.bind]

def atColon (kind : TokenKind) (r : List Char) (m m' : Mark) (given margin : Nat)
    (margins : List Nat) : Scanner :=
  { resting (':' :: r) m' given margin margins false with
    waiting := [⟨kind, m⟩], openKey := some ⟨given, margin == m.column + 1, m⟩ }

theorem fetch_key (l : Layout) {k : Key} (hk : k.IsPlain) (hc : isGap c = true)
    (hM : M ≤ m.column + 1) :
    (resting (k.write l ++ ':' :: c :: r) m g M N true).fetch =
      .ok (atColon (.scalar k.style k.text.toList) (c :: r) m (m.right (k.write l).length) g M
        N) := by
  cases k with
  | word w =>
    obtain ⟨hne, hw⟩ := hk w rfl
    obtain ⟨a, w', hcons⟩ := List.exists_cons_of_ne_nil hne
    have hcur : (resting (w.toList ++ ':' :: c :: r) m g M N true).cursor =
        ⟨a :: (w' ++ ':' :: c :: r), m, none⟩ := by
      simp only [resting, hcons, List.cons_append]
    have hread : readPlain none m false M (w.toList ++ ':' :: c :: r) m .none [] =
        .ok ⟨w.toList, ':' :: c :: r, m.right w.toList.length, false⟩ := by
      rw [readPlain_word false M hw, readPlain_colon M hc, List.append_nil, List.reverse_reverse]
    rw [Key.write, fetch_word hcur dropPastKeys_resting (hw a (hcons ▸ List.mem_cons_self)),
      unindent_of_le hM]
    simp [plainScalar, saveKey, resting, dropKey, Yaml.plainScalar, Cursor.need, look_none,
      hread, bind, Except.bind, inFlow, mark, push, atColon, Key.style, Key.text]
  | quoted s =>
    have hcur : (resting (l.quote s ++ ':' :: c :: r) m g M N true).cursor =
        ⟨'"' :: (s.toList.flatMap l.escape ++ ['"'] ++ ':' :: c :: r), m, none⟩ := rfl
    rw [Key.write, fetch_sign dropPastKeys_resting rfl hcur, unindent_of_le hM]
    simp [quotedScalar, saveKey, dropKey, resting, quotedScalar_quote, bind, Except.bind, mark,
      push, inFlow, atColon, Key.style, Key.text]

theorem isPast_right (n j : Nat) (required : Bool) (m : Mark) :
    OpenKey.isPast ⟨n, required, m⟩ (m.right j) = decide (1024 < j) := by
  simp [OpenKey.isPast, Mark.right]

theorem noOuterKeys_atColon {kind : TokenKind} {m' : Mark} :
    (atColon kind r m m' g M N).NoOuterKeys :=
  fun _ hk => by cases hk

section Colon

variable (kind : TokenKind) {j : Nat}

theorem scans_colon (hj : j ≤ 1024) (hc : isGap c = true) (hM : M ≤ m.column + 1) :
    ∃ g', Scans 5 (atColon kind (c :: r) m (m.right j) g M N)
      ((if M ≤ m.column then [.blockMappingStart] else []) ++ [.key false, kind, .value])
      (resting (c :: r) (m.right (j + 1)) g' (m.column + 1)
        (if M ≤ m.column then M :: N else N) false) := by
  let s₁ := atColon kind (c :: r) m (m.right j) g M N
  let s₂ : Scanner := { resting (c :: r) (m.right (j + 1)) g (m.column + 1)
      (if M ≤ m.column then M :: N else N) false with
    waiting := (if M ≤ m.column then [⟨.blockMappingStart, m⟩] else []) ++
      [⟨.key false, m⟩, ⟨kind, m⟩, ⟨.value, m.right j⟩] }
  have hpresent : OpenKey.isPast ⟨g, M == m.column + 1, m⟩ (m.right j) = false := by
    rw [isPast_right, decide_eq_false (by omega)]
  have houter : s₁.NoOuterKeys := noOuterKeys_atColon
  have hdrop : s₁.dropPastKeys = .ok s₁ := by
    rw [houter.dropPastKeys rfl fun _ => hpresent]
    simp [s₁, atColon, mark, resting, hpresent]
  have hcolon : s₁.fetch = .ok s₂ := by
    have hle : M ≤ (m.right j).column + 1 := by
      show M ≤ m.column + j + 1
      omega
    rw [fetch_colon hdrop rfl hc, unindent_of_le hle]
    by_cases hopen : M ≤ m.column
    · have hnot : ¬ m.column < M := by omega
      simp [value, s₁, s₂, atColon, insert, indent, resting, inFlow, hopen, hnot, sign, push, mark,
        Cursor.skip, Mark.right_right]
    · have hlt : m.column < M := by omega
      obtain rfl : M = m.column + 1 := by omega
      simp [value, s₁, s₂, atColon, insert, indent, resting, inFlow, sign, push, mark, Cursor.skip,
        Mark.right_right]
  have hwait : Scans 1 s₁ [] s₂ := by
    refine .wait (by simp [s₁, atColon]) hdrop ?_ hcolon
    simp [mayBeKey, s₁, atColon, resting]
  have hkeys : s₂.NoKeys := noKeys_resting s₂.waiting
  have hall := hwait.append hkeys.drain
  have hlen : s₂.waiting.length ≤ 4 := by
    simp only [s₂]
    split <;> simp
  have hkinds : s₂.waiting.map Token.kind =
      (if M ≤ m.column then [.blockMappingStart] else []) ++ [.key false, kind, .value] := by
    simp only [s₂]
    split <;> rfl
  rw [hkinds] at hall
  exact ⟨_, hall.mono (by omega)⟩

theorem fails_colon (hj : 1024 < j) (hc : isGap c = true) (hM : M ≤ m.column + 1) :
    ∃ kinds, kinds ⊆ [kind] ∧ Fails 2 (atColon kind (c :: r) m (m.right j) g M N) kinds := by
  have hpast : OpenKey.isPast ⟨g, M == m.column + 1, m⟩ (m.right j) = true := by
    rw [isPast_right, decide_eq_true hj]
  let s₁ := atColon kind (c :: r) m (m.right j) g M N
  have houter : s₁.NoOuterKeys := noOuterKeys_atColon
  by_cases hreq : M = m.column + 1
  · obtain ⟨f, hf⟩ := houter.dropPastKeys_error (k := ⟨g, M == m.column + 1, m⟩) rfl
      (beq_iff_eq.2 hreq) hpast
    exact ⟨[], List.nil_subset _, (Fails.of_dropPastKeys (List.cons_ne_nil _ _) hf).mono (by omega)⟩
  · -- It is given out as what it is, and the colon finds no key.
    let s₂ : Scanner := resting (':' :: c :: r) (m.right j) (g + 1) M N false
    have hgone : s₁.dropPastKeys = .ok { s₁ with openKey := none } := by
      rw [houter.dropPastKeys rfl fun h => absurd (beq_iff_eq.1 h) hreq]
      simp [s₁, atColon, mark, resting, hpast]
    have hnone : NoKeys { s₁ with openKey := none } := ⟨rfl, houter⟩
    have hgive : Scans 1 s₁ [kind] s₂ := .give rfl hgone rfl (hnone.mayBeKey g)
    have hle : M ≤ (m.right j).column + 1 := by
      show M ≤ m.column + j + 1
      omega
    have hfetch : s₂.fetch = .error (.misplaced .valuePlace (m.right j) none) := by
      rw [fetch_colon dropPastKeys_resting rfl hc, unindent_of_le hle]
      simp [value, resting, ensurePlace, inFlow, mark, bind, Except.bind]
    exact ⟨[kind], List.Subset.refl _, hgive.fails (.of_fetch rfl rfl hfetch)⟩

end Colon

theorem scans_key (l : Layout) {k : Key} (hk : k.IsPlain) (hlen : (k.write l).length ≤ 1024)
    (hc : isGap c = true) (hM : M ≤ m.column + 1) :
    ∃ g', Scans 6 (resting (k.write l ++ ':' :: c :: r) m g M N true)
      ((if M ≤ m.column then [.blockMappingStart] else []) ++
        [.key false, .scalar k.style k.text.toList, .value])
      (resting (c :: r) (m.right ((k.write l).length + 1)) g' (m.column + 1)
        (if M ≤ m.column then M :: N else N) false) := by
  obtain ⟨g', hcolon⟩ := scans_colon (.scalar k.style k.text.toList) (r := r) (g := g) (N := N)
    hlen hc hM
  have hall := (Scans.fetch rfl rfl (fetch_key l hk hc hM)).append hcolon
  exact ⟨g', hall⟩

theorem fails_key (l : Layout) {k : Key} (hk : k.IsPlain) (hlen : 1024 < (k.write l).length)
    (hc : isGap c = true) (hM : M ≤ m.column + 1) :
    ∃ kinds, kinds ⊆ [.scalar k.style k.text.toList] ∧
      Fails 3 (resting (k.write l ++ ':' :: c :: r) m g M N true) kinds := by
  obtain ⟨kinds, hkinds, hcolon⟩ := fails_colon (.scalar k.style k.text.toList) (r := r)
    (g := g) (N := N) hlen hc hM
  exact ⟨kinds, hkinds, (Scans.fetch rfl rfl (fetch_key l hk hc hM)).fails hcolon⟩

theorem scans_word {w : List Char} (hne : w ≠ []) (hw : ∀ c ∈ w, isPlainChar c = true) {k : Nat}
    (hk : k < M) (hrest : IsStop rest) (hM : M ≤ m.column + 1) :
    Scans 2 (resting (w ++ '\n' :: (List.replicate k ' ' ++ rest)) m g M N false)
      [.scalar .plain w]
      (resting rest (((m.right w.length).down 1).right k) (g + 1) M N true) := by
  let s₀ := resting (w ++ '\n' :: (List.replicate k ' ' ++ rest)) m g M N false
  let s₁ : Scanner := { resting rest (((m.right w.length).down 1).right k) g M N true with
    waiting := [⟨.scalar .plain w, m⟩] }
  have hfetch : s₀.fetch = .ok s₁ := by
    obtain ⟨a, w', hcons⟩ := List.exists_cons_of_ne_nil hne
    have hcur : s₀.cursor = ⟨a :: (w' ++ '\n' :: (List.replicate k ' ' ++ rest)), m, none⟩ := by
      simp only [s₀, resting, hcons, List.cons_append]
    have hread : readPlain none m false M (w ++ '\n' :: (List.replicate k ' ' ++ rest)) m .none [] =
        .ok ⟨w, rest, ((m.right w.length).down 1).right k, true⟩ := by
      rw [readPlain_word false M hw, readPlain_line hk hrest, List.append_nil, List.reverse_reverse]
    rw [fetch_word hcur dropPastKeys_resting (hw a (hcons ▸ List.mem_cons_self)),
      unindent_of_le hM]
    simp [s₀, plainScalar, saveKey, resting, Yaml.plainScalar, Cursor.need, look_none, hread, bind,
      Except.bind, inFlow, mark, push, s₁]
  exact (noKeys_resting s₁.waiting).fetched rfl rfl hfetch

theorem scans_quoted (l : Layout) (s : String) (hM : M ≤ m.column + 1) :
    Scans 2 (resting (l.quote s ++ r) m g M N false) [.scalar .doubleQuoted s.toList]
      (resting r (m.right (l.quote s).length) (g + 1) M N false) := by
  let s₁ : Scanner := { resting r (m.right (l.quote s).length) g M N false with
    waiting := [⟨.scalar .doubleQuoted s.toList, m⟩] }
  have hfetch : (resting (l.quote s ++ r) m g M N false).fetch = .ok s₁ := by
    have hcur : (resting (l.quote s ++ r) m g M N false).cursor =
        ⟨'"' :: (s.toList.flatMap l.escape ++ ['"'] ++ r), m, none⟩ := rfl
    rw [fetch_sign dropPastKeys_resting rfl hcur, unindent_of_le hM]
    simp [quotedScalar, saveKey, resting, quotedScalar_quote, bind, Except.bind, mark, push, s₁]
  exact (noKeys_resting s₁.waiting).fetched rfl rfl hfetch

/-- Between two tokens of a list if `inside`, else behind the list. -/
def listing (inside : Bool) (rest : List Char) (m : Mark) (given margin : Nat)
    (margins : List Nat) : Scanner :=
  { resting rest m given margin margins inside with outerKeys := if inside then [none] else [] }

theorem noOuterKeys_of_eq (inside : Bool) (h : s.outerKeys = if inside then [none] else []) :
    s.NoOuterKeys := by
  intro k hk
  rw [h] at hk
  cases inside with
  | true => exact List.mem_singleton.1 hk
  | false => cases hk

theorem noKeys_listing (inside : Bool) (ws : List Token) :
    NoKeys { listing inside rest m g M N with waiting := ws } :=
  ⟨rfl, noOuterKeys_of_eq inside rfl⟩

def listSign (more : Bool) : Char := if more then ',' else ']'

def listSignKind (more : Bool) : TokenKind := if more then .flowEntry else .flowSequenceEnd

theorem fetch_listSign (ws : List Token) (key? : Option OpenKey)
    (hkey : ∀ k ∈ key?, k.required = false) {a : Bool} (more : Bool)
    (hs : s = { listing true (listSign more :: r) m g M N with
      waiting := ws, openKey := key?, keyAllowed := a }) (hd : s.dropPastKeys = .ok s) :
    s.fetch = .ok { listing more r m.right g M N with
      waiting := ws ++ [⟨listSignKind more, m⟩] } := by
  have hflow : s.unindent (m.column + 1) = s := by
    subst hs
    rfl
  have hdropKey : s.dropKey = .ok { s with openKey := none } := by
    subst hs
    unfold dropKey
    cases key? with
    | none => rfl
    | some k => simp [hkey k rfl]
  cases more with
  | true =>
    have hcur : s.cursor = ⟨',' :: r, m, none⟩ := by rw [hs]; rfl
    rw [fetch_sign hd rfl hcur, hflow, flowEntry, hdropKey, hs]
    rfl
  | false =>
    have hcur : s.cursor = ⟨']' :: r, m, none⟩ := by rw [hs]; rfl
    rw [fetch_sign hd rfl hcur, hflow, closeFlow, hdropKey, hs]
    rfl

/-- An item of a list with the sign behind it. A long item is given out at once, since it is past
being a key; a short one waits for the sign. -/
theorem scans_item (l : Layout) (s : String) (more : Bool) :
    ∃ g', Scans 4 (listing true (l.quote s ++ listSign more :: r) m g M N)
      [.scalar .doubleQuoted s.toList, listSignKind more]
      (listing more r (m.right ((l.quote s).length + 1)) g' M N) := by
  let item : Token := ⟨.scalar .doubleQuoted s.toList, m⟩
  let key : OpenKey := ⟨g, false, m⟩
  let m₁ := m.right (l.quote s).length
  let s₀ := listing true (l.quote s ++ listSign more :: r) m g M N
  let s₁ : Scanner := { listing true (listSign more :: r) m₁ g M N with
    waiting := [item], openKey := some key, keyAllowed := false }
  have hfetch : s₀.fetch = .ok s₁ := by
    have hcur : s₀.cursor =
      ⟨'"' :: (s.toList.flatMap l.escape ++ ['"'] ++ listSign more :: r), m, none⟩ := rfl
    have hflow : s₀.unindent (m.column + 1) = s₀ := rfl
    have hkeys : s₀.NoKeys := noKeys_listing true []
    rw [fetch_sign hkeys.dropPastKeys rfl hcur, hflow]
    simp [quotedScalar, saveKey, dropKey, s₀, listing, resting, quotedScalar_quote, bind,
      Except.bind, mark, push, inFlow, s₁, key, item, m₁]
  have houter : s₁.NoOuterKeys := noOuterKeys_of_eq true rfl
  have hdrop := houter.dropPastKeys (k := key) rfl (fun h => by cases h)
  rw [← Mark.right_right]
  cases hpast : key.isPast m₁ with
  | false =>
    have hsame : s₁.dropPastKeys = .ok s₁ := by
      rw [hdrop]
      simp [s₁, mark, listing, resting, hpast]
    have hmay : s₁.mayBeKey s₁.given = true := by simp [mayBeKey, s₁, key, listing, resting]
    have hsign := fetch_listSign [item] (some key) (fun k hk => by cases hk; rfl)
      more rfl hsame
    have hwait := Scans.wait (by simp [s₁]) hsame hmay hsign
    exact ⟨_, ((Scans.fetch rfl rfl hfetch).append hwait).append (noKeys_listing more _).drain⟩
  | true =>
    let s₂ : Scanner :=
      { listing true (listSign more :: r) m₁ (g + 1) M N with keyAllowed := false }
    have hgone : s₁.dropPastKeys = .ok { s₁ with openKey := none } := by
      rw [hdrop]
      simp [s₁, mark, listing, resting, hpast]
    have hnone : NoKeys { s₁ with openKey := none } := ⟨rfl, houter⟩
    have hmay := hnone.mayBeKey g
    have hgive : Scans 1 s₁ [item.kind] s₂ := .give rfl hgone rfl hmay
    have hkeys : s₂.NoKeys := ⟨rfl, noOuterKeys_of_eq true rfl⟩
    have hsign := fetch_listSign (s := s₂) [] none (fun k hk => by cases hk) more
      rfl hkeys.dropPastKeys
    have hall := ((Scans.fetch rfl rfl hfetch).append hgive).append (Scans.fetch rfl rfl hsign)
    exact ⟨_, hall.append (noKeys_listing more _).drain⟩

def writeItems (l : Layout) (ss : List String) : List Char :=
  List.intercalate [',', ' '] (ss.map l.quote) ++ [']']

def moreItemKinds (ss : List String) : List TokenKind :=
  ss.flatMap (fun s => [.flowEntry, .scalar .doubleQuoted s.toList]) ++ [.flowSequenceEnd]

def itemKinds : List String → List TokenKind
  | [] => [.flowSequenceEnd]
  | s :: ss => .scalar .doubleQuoted s.toList :: moreItemKinds ss

theorem scans_items (l : Layout) (ss : List String) :
    ∃ g', Scans (8 * (writeItems l ss).length) (listing true (writeItems l ss ++ r) m g M N)
      (itemKinds ss) (listing false r (m.right (writeItems l ss).length) g' M N) := by
  induction ss generalizing m g with
  | nil =>
    have hsign := fetch_listSign (s := listing true (']' :: r) m g M N) [] none
      (fun k hk => by cases hk) false rfl (noKeys_listing true []).dropPastKeys
    have hall := (noKeys_listing false _).fetched rfl rfl hsign
    exact ⟨_, hall.mono (by simp [writeItems])⟩
  | cons s ss ih =>
    cases ss with
    | nil =>
      have htext : writeItems l [s] = l.quote s ++ [']'] := by simp [writeItems]
      obtain ⟨g', hitem⟩ := scans_item (r := r) (m := m) (g := g) (M := M) (N := N) l s false
      rw [htext, List.append_assoc, List.length_append]
      exact ⟨g', hitem.mono (by simp; omega)⟩
    | cons t ss =>
      have htext : writeItems l (s :: t :: ss) =
          l.quote s ++ ',' :: ' ' :: writeItems l (t :: ss) := by
        simp [writeItems, List.intercalate_cons_cons]
      have hlen : (writeItems l (s :: t :: ss)).length =
          (l.quote s).length + 1 + (1 + (writeItems l (t :: ss)).length) := by
        rw [htext, List.length_append, List.length_cons, List.length_cons]
        omega
      obtain ⟨g₁, hitem⟩ := scans_item (r := ' ' :: (writeItems l (t :: ss) ++ r)) (m := m) (g := g)
        (M := M) (N := N) l s true
      have hspace := scans_space (s := listing true (' ' :: (writeItems l (t :: ss) ++ r))
        (m.right ((l.quote s).length + 1)) g₁ M N) rfl rfl rfl
      obtain ⟨g₂, hmore⟩ := ih (m := (m.right ((l.quote s).length + 1)).right) (g := g₁)
      have hall := (hitem.append hspace).append hmore
      rw [hlen, ← Mark.right_right, ← Mark.right_right, htext, List.append_assoc]
      exact ⟨g₂, hall.mono (by omega)⟩

/-! What a written document is scanned as. -/

def contentKinds : Content → List TokenKind
  | .word s => [.scalar .plain s.toList]
  | .quoted s => [.scalar .doubleQuoted s.toList]
  | .flow ss => .flowSequenceStart :: itemKinds ss

def fieldKinds (f : Field) : List TokenKind :=
  [.key false, .scalar .plain f.key.toList, .value] ++ contentKinds f.value

theorem scans_flow (l : Layout) (ss : List String) (hM : M ≤ m.column + 1) :
    ∃ g', Scans (8 * ((Content.flow ss).write l).length)
      (resting ((Content.flow ss).write l ++ r) m g M N false) (contentKinds (.flow ss))
      (resting r (m.right ((Content.flow ss).write l).length) g' M N false) := by
  have hfetch : (resting ('[' :: (writeItems l ss ++ r)) m g M N false).fetch =
      .ok { listing true (writeItems l ss ++ r) m.right g M N with
        waiting := [⟨.flowSequenceStart, m⟩] } := by
    rw [fetch_sign (c := '[') (r := writeItems l ss ++ r) (m := m) dropPastKeys_resting rfl
      rfl, unindent_of_le hM]
    rfl
  obtain ⟨g', hitems⟩ := scans_items (r := r) (m := m.right) (g := g + 1) (M := M) (N := N) l ss
  have hall := ((noKeys_listing true _).fetched rfl rfl hfetch).append hitems
  have hlen : ((Content.flow ss).write l).length = 1 + (writeItems l ss).length := by
    rw [Content.write, List.length_cons, writeItems, Nat.add_comm]
  rw [hlen, ← Mark.right_right]
  exact ⟨g', hall.mono (by simp; omega)⟩

theorem scans_content (l : Layout) {v : Content} (hv : ∀ s, v = .word s → IsWord s) {k : Nat}
    (hk : k < M) (hrest : IsStop rest) (hM : M ≤ m.column + 1) :
    ∃ g', Scans (8 * (v.write l).length)
      (resting (v.write l ++ '\n' :: (List.replicate k ' ' ++ rest)) m g M N false) (contentKinds v)
      (resting rest (((m.right (v.write l).length).down 1).right k) g' M N true) := by
  cases v with
  | word s =>
    have hs := hv s rfl
    have hpos := List.length_pos_iff.2 hs.ne_nil
    have hword := scans_word (m := m) (g := g) (N := N) hs.ne_nil hs.chars hk hrest hM
    exact ⟨_, hword.mono (by rw [Content.write]; omega)⟩
  | quoted s =>
    have hquoted := scans_quoted (r := '\n' :: (List.replicate k ' ' ++ rest)) (g := g) (N := N) l s
      hM
    have hall := (hquoted.append scans_lineFeed).append (scans_spaces k)
    exact ⟨_, hall.mono (by simp [Content.write, Layout.quote]; omega)⟩
  | flow ss =>
    obtain ⟨g', hflow⟩ := scans_flow (r := '\n' :: (List.replicate k ' ' ++ rest)) (g := g) (N := N)
      l ss hM
    have hall := (hflow.append scans_lineFeed).append (scans_spaces k)
    rw [List.append_nil, List.append_nil] at hall
    exact ⟨g', hall⟩

theorem isStop_append {w : List Char} (hne : w ≠ []) (hw : ∀ c ∈ w, isPlainChar c = true) :
    IsStop (w ++ r) := by
  obtain ⟨a, w', rfl⟩ := List.exists_cons_of_ne_nil hne
  rintro c hc
  obtain rfl : a = c := Option.some.inj hc
  have ha := hw a List.mem_cons_self
  exact ⟨isSpaceOrTab_of_isPlainChar ha, isBreak_of_isPlainChar ha⟩

theorem scans_field (l : Layout) {f : Field} (hf : f.IsPlain) {k : Nat} (hk : k ≤ m.column)
    (hrest : IsStop rest) (hM : M ≤ m.column + 1) :
    ∃ g' m', m'.column = k ∧ Scans (8 * (l.writeField f).length)
      (resting (l.writeField f ++ (List.replicate k ' ' ++ rest)) m g M N true)
      ((if M ≤ m.column then [.blockMappingStart] else []) ++ fieldKinds f)
      (resting rest m' g' (m.column + 1) (if M ≤ m.column then M :: N else N) true) := by
  obtain ⟨g₁, hkey⟩ := scans_key (g := g) (N := N) (c := ' ')
    (r := f.value.write l ++ '\n' :: (List.replicate k ' ' ++ rest))
    l hf.key.isPlain hf.key.length_le rfl hM
  have hspace := scans_space (s := resting (' ' :: (f.value.write l ++
    '\n' :: (List.replicate k ' ' ++ rest))) (m.right (f.key.toList.length + 1)) g₁ (m.column + 1)
    (if M ≤ m.column then M :: N else N) false) rfl rfl rfl
  obtain ⟨g₂, hnode⟩ := scans_content (m := (m.right (f.key.toList.length + 1)).right) (g := g₁)
    (M := m.column + 1) (N := if M ≤ m.column then M :: N else N) l hf.value
    (Nat.lt_succ_of_le hk) hrest (by simp only [Mark.right]; omega)
  have hall := (hkey.append hspace).append hnode
  have htext : l.writeField f ++ (List.replicate k ' ' ++ rest) = f.key.toList ++
      ':' :: ' ' :: (f.value.write l ++ '\n' :: (List.replicate k ' ' ++ rest)) := by
    simp [Layout.writeField]
  have hlen : (l.writeField f).length = f.key.toList.length + (f.value.write l).length + 3 := by
    simp only [Layout.writeField, List.length_append, List.length_cons, List.length_nil]
    omega
  rw [List.append_nil] at hall
  rw [htext, fieldKinds, ← List.append_assoc]
  exact ⟨g₂, _, Nat.zero_add k, hall.mono (by omega)⟩

theorem scans_fields (l : Layout) {f : Field} {fs : List Field} (hfs : ∀ g ∈ f :: fs, g.IsPlain)
    {k : Nat} (hk : k ≤ m.column) (hrest : IsStop rest) (hm : m.column = l.column + 2)
    (hM : M ≤ m.column + 1) :
    ∃ g' m', m'.column = k ∧ Scans (8 * (l.writeField f ++ l.writeMore fs).length)
      (resting (l.writeField f ++ (l.writeMore fs ++ (List.replicate k ' ' ++ rest))) m g M N true)
      ((if M ≤ m.column then [.blockMappingStart] else []) ++ (f :: fs).flatMap fieldKinds)
      (resting rest m' g' (m.column + 1) (if M ≤ m.column then M :: N else N) true) := by
  have hf := hfs f List.mem_cons_self
  induction fs generalizing f m g M N with
  | nil => simpa [Layout.writeMore] using scans_field l hf hk hrest hM
  | cons f' fs ih =>
    have hf' := hfs f' (List.mem_cons_of_mem f List.mem_cons_self)
    have hmore : l.writeMore (f' :: fs) =
        List.replicate m.column ' ' ++ (l.writeField f' ++ l.writeMore fs) := by
      rw [hm, Layout.writeMore, List.flatMap_cons, List.append_assoc]
      rfl
    have hstop :
        IsStop (l.writeField f' ++ (l.writeMore fs ++ (List.replicate k ' ' ++ rest))) := by
      rw [Layout.writeField, List.append_assoc]
      exact isStop_append hf'.key.ne_nil hf'.key.chars
    obtain ⟨g₁, m₁, hm₁, hfirst⟩ := scans_field (g := g) (N := N) l hf (Nat.le_refl _) hstop hM
    obtain ⟨g₂, m₂, hm₂, hothers⟩ := ih (m := m₁) (g := g₁) (M := m.column + 1)
      (N := if M ≤ m.column then M :: N else N) (fun g hg => hfs g (List.mem_cons_of_mem f hg))
      (hm₁ ▸ hk) (hm₁ ▸ hm) (by omega) hf'
    have hclosed : ¬ m.column + 1 ≤ m₁.column := by omega
    simp only [if_neg hclosed, List.nil_append] at hothers
    rw [hm₁] at hothers
    have hall := hfirst.append hothers
    refine ⟨g₂, m₂, hm₂, ?_⟩
    rw [hmore]
    simp only [List.append_assoc, List.flatMap_cons, List.length_append] at hall ⊢
    exact hall.mono (by omega)

/-- What a block sequence at this column adds to the tokens and to the margins of its records; at
the column of the mapping around it, it is no block of its own. -/
def sequenceKinds (l : Layout) (kind : TokenKind) : List TokenKind :=
  if l.column = 0 then [] else [kind]

def recordMargins (l : Layout) : List Nat := if l.column = 0 then [0] else [1, 0]

theorem map_kind_map_mk (kinds : List TokenKind) (m : Mark) :
    (kinds.map (Token.mk · m)).map Token.kind = kinds := by
  rw [List.map_map]
  exact List.map_id kinds

theorem scans_fetched {kinds : List TokenKind} (hw : s.waiting = []) (he : s.ended = false)
    (hfetch : s.fetch = .ok { resting (' ' :: r) m g M N b with
      waiting := kinds.map (⟨·, s.mark⟩) }) :
    ∃ g', Scans (kinds.length + 1) s kinds (resting r m.right g' M N b) := by
  have hspace := scans_space (s := resting (' ' :: r) m (g + (kinds.map (Token.mk · s.mark)).length)
    M N b) rfl rfl rfl
  have hall := ((noKeys_resting _).fetched hw he hfetch).append hspace
  simp only [map_kind_map_mk, List.append_nil, List.length_map] at hall
  exact ⟨_, hall.mono (by omega)⟩

theorem scans_first_dash (l : Layout) (hm : m.column = l.column) :
    ∃ g', Scans 3 (resting ('-' :: ' ' :: r) m g 1 [0] true)
      (sequenceKinds l .blockSequenceStart ++ [.blockEntry])
      (resting r (m.right 2) g' (l.column + 1) (recordMargins l) true) := by
  have hfetch : (resting ('-' :: ' ' :: r) m g 1 [0] true).fetch =
      .ok { resting (' ' :: r) m.right g (l.column + 1) (recordMargins l) true with
        waiting := (sequenceKinds l .blockSequenceStart ++ [TokenKind.blockEntry]).map
          (Token.mk · m) } := by
    rw [fetch_dash (r := r) (m := m) dropPastKeys_resting rfl,
      unindent_of_le (Nat.succ_le_succ (Nat.zero_le _))]
    by_cases hzero : l.column = 0 <;>
      simp [blockEntry, ensurePlace, indent, dropKey, resting, inFlow, mark, hm, hzero, bind,
        Except.bind, sequenceKinds, recordMargins, sign, push, Cursor.skip]
  obtain ⟨g', hscans⟩ := scans_fetched rfl rfl hfetch
  have hlen : (sequenceKinds l .blockSequenceStart ++ [TokenKind.blockEntry]).length + 1 ≤ 3 := by
    unfold sequenceKinds
    split <;> simp
  exact ⟨g', hscans.mono hlen⟩

theorem scans_next_dash (l : Layout) (hm : m.column = l.column) :
    ∃ g', Scans 3
      (resting ('-' :: ' ' :: r) m g (l.column + 3) ((l.column + 1) :: recordMargins l) true)
      [.blockEnd, .blockEntry]
      (resting r (m.right 2) g' (l.column + 1) (recordMargins l) true) := by
  have hfetch : Scanner.fetch
      (resting ('-' :: ' ' :: r) m g (l.column + 3) ((l.column + 1) :: recordMargins l) true) =
      .ok { resting (' ' :: r) m.right g (l.column + 1) (recordMargins l) true with
        waiting := [TokenKind.blockEnd, .blockEntry].map (⟨·, m⟩) } := by
    rw [fetch_dash (r := r) (m := m) dropPastKeys_resting rfl]
    by_cases hzero : l.column = 0 <;>
      simp [unindent, closeTo, blockEntry, ensurePlace, indent, dropKey, resting, inFlow, mark, hm,
        hzero, bind, Except.bind, recordMargins, sign, push, Cursor.skip]
  exact scans_fetched rfl rfl hfetch

theorem scans_end (l : Layout) (hm : m.column = 0) :
    ∃ t, t.waiting = [] ∧ t.ended = true ∧ Scans 5
      (resting [] m g (l.column + 3) ((l.column + 1) :: recordMargins l) true)
      (.blockEnd :: (sequenceKinds l .blockEnd ++ [.blockEnd, .streamEnd])) t := by
  let kinds := .blockEnd :: (sequenceKinds l .blockEnd ++ [.blockEnd, .streamEnd])
  let s₁ : Scanner := { resting [] m g 0 [] false with
    waiting := kinds.map (⟨·, m⟩), ended := true }
  have hfetch : (resting [] m g (l.column + 3) ((l.column + 1) :: recordMargins l) true).fetch =
      .ok s₁ := by
    rw [fetch_end dropPastKeys_resting rfl]
    by_cases hzero : l.column = 0
    · simp [unindent, closeTo, finish, dropKey, resting, inFlow, mark, hm, hzero, bind, Except.bind,
        recordMargins, push, s₁, kinds, sequenceKinds]
    · have hpos := Nat.pos_of_ne_zero hzero
      simp [unindent, closeTo, finish, dropKey, resting, inFlow, mark, hm, hzero, hpos, bind,
        Except.bind, recordMargins, push, s₁, kinds, sequenceKinds]
  have hkeys : s₁.NoKeys := ⟨rfl, fun _ hk => by cases hk⟩
  have hkinds : s₁.waiting.map Token.kind = kinds := map_kind_map_mk kinds m
  have hlen : 1 + s₁.waiting.length ≤ 5 := by
    simp only [s₁, List.length_map, kinds, sequenceKinds]
    split <;> simp
  have hall := hkeys.fetched rfl rfl hfetch
  rw [hkinds] at hall
  exact ⟨_, rfl, rfl, hall.mono hlen⟩

def recordKinds (fs : List Field) : List TokenKind :=
  .blockEntry :: .blockMappingStart :: (fs.flatMap fieldKinds ++ [.blockEnd])

def documentKinds (l : Layout) (key : String) (rs : List (List Field)) : List TokenKind :=
  [.blockMappingStart, .key false, .scalar .plain key.toList, .value] ++
    sequenceKinds l .blockSequenceStart ++ rs.flatMap recordKinds ++
    sequenceKinds l .blockEnd ++ [.blockEnd, .streamEnd]

def nextKinds (fs : List Field) : List TokenKind :=
  [.blockEnd, .blockEntry, .blockMappingStart] ++ fs.flatMap fieldKinds

theorem flatMap_nextKinds (rs : List (List Field)) :
    rs.flatMap nextKinds ++ [.blockEnd] = .blockEnd :: rs.flatMap recordKinds := by
  induction rs with
  | nil => rfl
  | cons fs rs ih =>
    rw [List.flatMap_cons, List.append_assoc, ih]
    simp only [List.flatMap_cons, recordKinds, nextKinds, List.append_assoc, List.cons_append,
      List.nil_append]

theorem tail_flatMap_nextKinds {rs : List (List Field)} (hne : rs ≠ []) :
    (rs.flatMap nextKinds).tail ++ [.blockEnd] = rs.flatMap recordKinds := by
  obtain ⟨fs, rs, rfl⟩ := List.exists_cons_of_ne_nil hne
  exact congrArg List.tail (flatMap_nextKinds (fs :: rs))

def indentation (l : Layout) (k : Nat) : List (List Field) → Nat
  | [] => k
  | _ :: _ => l.column

/-- Records without the indentation of the first one, before what follows them `k` blanks in. -/
def dashed (l : Layout) (k : Nat) (rest : List Char) : List (List Field) → List Char
  | (f :: fs) :: rs =>
    '-' :: ' ' :: (l.writeField f ++ (l.writeMore fs ++
      (rs.flatMap l.writeRecord ++ (List.replicate k ' ' ++ rest))))
  | _ => rest

section Records

variable {k : Nat} {rs : List (List Field)}

theorem writeRecords_eq (l : Layout) (k : Nat) (rest : List Char) (hrs : [] ∉ rs) :
    rs.flatMap l.writeRecord ++ (List.replicate k ' ' ++ rest) =
      List.replicate (indentation l k rs) ' ' ++ dashed l k rest rs := by
  match rs with
  | [] => rfl
  | [] :: _ => exact absurd List.mem_cons_self hrs
  | (f :: fs) :: rs => simp [Layout.writeRecord, dashed, indentation]

theorem isStop_dashed (l : Layout) (hrest : IsStop rest) (rs : List (List Field)) :
    IsStop (dashed l k rest rs) := by
  match rs with
  | [] => exact hrest
  | [] :: _ => exact hrest
  | (f :: fs) :: rs =>
    intro c hc
    obtain rfl := Option.some.inj hc
    exact ⟨rfl, rfl⟩

theorem scans_record (l : Layout) {f : Field} {fs : List Field} (hfs : ∀ g ∈ f :: fs, g.IsPlain)
    (hrs : [] ∉ rs) (hk : k ≤ l.column + 2) (hrest : IsStop rest) (hm : m.column = l.column + 2) :
    ∃ g' m', m'.column = indentation l k rs ∧
      Scans (8 * (l.writeField f ++ l.writeMore fs).length)
      (resting (l.writeField f ++ (l.writeMore fs ++
        (rs.flatMap l.writeRecord ++ (List.replicate k ' ' ++ rest)))) m g (l.column + 1)
        (recordMargins l) true)
      (.blockMappingStart :: (f :: fs).flatMap fieldKinds)
      (resting (dashed l k rest rs) m' g' (l.column + 3) ((l.column + 1) :: recordMargins l)
        true) := by
  have hindent : indentation l k rs ≤ m.column := by
    rw [hm]
    cases rs with
    | nil => exact hk
    | cons _ _ => exact Nat.le_add_right _ 2
  obtain ⟨g', m', hm', hscans⟩ := scans_fields (g := g) (N := recordMargins l) l hfs hindent
    (isStop_dashed l hrest rs) hm (M := l.column + 1) (by omega)
  have hopen : l.column + 1 ≤ m.column := by omega
  rw [if_pos hopen, if_pos hopen, hm] at hscans
  rw [writeRecords_eq l k rest hrs]
  exact ⟨g', m', hm', hscans⟩

theorem scans_records (l : Layout) (hrs : [] ∉ rs) (hplain : ∀ fs ∈ rs, ∀ f ∈ fs, f.IsPlain)
    (hk : k ≤ l.column + 2) (hrest : IsStop rest) (hm : m.column = indentation l k rs) :
    ∃ g' m', m'.column = k ∧ Scans (8 * (rs.flatMap l.writeRecord).length)
      (resting (dashed l k rest rs) m g (l.column + 3) ((l.column + 1) :: recordMargins l) true)
      (rs.flatMap nextKinds)
      (resting rest m' g' (l.column + 3) ((l.column + 1) :: recordMargins l) true) := by
  induction rs generalizing m g with
  | nil => exact ⟨g, m, hm, .refl _⟩
  | cons fs rs ih =>
    have hmore : [] ∉ rs := fun h => hrs (List.mem_cons_of_mem fs h)
    match fs with
    | [] => exact absurd List.mem_cons_self hrs
    | f :: fs =>
      obtain ⟨g₁, hdash⟩ := scans_next_dash (g := g) (r := l.writeField f ++ (l.writeMore fs ++
        (rs.flatMap l.writeRecord ++ (List.replicate k ' ' ++ rest)))) l hm
      obtain ⟨g₂, m₂, hm₂, hrecord⟩ := scans_record (m := m.right 2) (g := g₁) l
        (hplain _ List.mem_cons_self) hmore hk hrest (by simp only [Mark.right]; rw [hm]; rfl)
      obtain ⟨g₃, m₃, hm₃, hothers⟩ := ih (m := m₂) (g := g₂) hmore
        (fun fs' h => hplain fs' (List.mem_cons_of_mem _ h)) hm₂
      have hall := (hdash.append hrecord).append hothers
      refine ⟨g₃, m₃, hm₃, ?_⟩
      have hlen : (((f :: fs) :: rs).flatMap l.writeRecord).length = l.column + 2 +
          (l.writeField f ++ l.writeMore fs).length + (rs.flatMap l.writeRecord).length := by
        simp only [List.flatMap_cons, Layout.writeRecord, List.length_append, List.length_cons,
          List.length_replicate]
        omega
      rw [hlen]
      simp only [List.flatMap_cons, nextKinds, List.append_assoc, List.cons_append,
        List.nil_append] at hall ⊢
      exact hall.mono (by omega)

theorem scans_opening (l : Layout) {key : String} (hkey : IsWord key) (r : List Char) :
    ∃ g' m', m'.column = l.column + 2 ∧ Scans (8 * (key.toList.length + l.column + 4))
      (resting (key.toList ++ ':' :: '\n' :: (List.replicate l.column ' ' ++ '-' :: ' ' :: r)) {}
        0 0 [] true)
      ([.blockMappingStart, .key false, .scalar .plain key.toList, .value] ++
        (sequenceKinds l .blockSequenceStart ++ [.blockEntry]))
      (resting r m' g' (l.column + 1) (recordMargins l) true) := by
  let m₁ : Mark := ((Mark.right {} (key.toList.length + 1)).down 1).right l.column
  have hm₁ : m₁.column = l.column := Nat.zero_add _
  obtain ⟨g₁, hkeys⟩ := scans_key (m := {}) (g := 0) (M := 0) (N := []) (c := '\n')
    (r := List.replicate l.column ' ' ++ '-' :: ' ' :: r) l hkey.isPlain hkey.length_le rfl
    (Nat.zero_le _)
  have hline := scans_lineFeed (r := List.replicate l.column ' ' ++ '-' :: ' ' :: r)
    (m := Mark.right {} (key.toList.length + 1)) (g := g₁) (M := 1) (N := [0]) (b := false)
  have hspaces := scans_spaces (r := '-' :: ' ' :: r) (g := g₁) (M := 1) (N := [0])
    (m := (Mark.right {} (key.toList.length + 1)).down 1) (b := true) l.column
  obtain ⟨g₂, hdash⟩ := scans_first_dash (g := g₁) (r := r) l hm₁
  rw [if_pos (Nat.zero_le _), if_pos (Nat.zero_le _)] at hkeys
  have hall := ((hkeys.append hline).append hspaces).append hdash
  refine ⟨g₂, m₁.right 2, by simp only [Mark.right]; rw [hm₁], ?_⟩
  simp only [List.append_nil] at hall
  exact hall.mono (by omega)

theorem scans_written (l : Layout) {key : String} (hkey : IsWord key) (hne : rs ≠ [])
    (hrs : [] ∉ rs) (hplain : ∀ fs ∈ rs, ∀ f ∈ fs, f.IsPlain) (hk : k ≤ l.column + 2)
    (hrest : IsStop rest) :
    ∃ g' m', m'.column = k ∧ Scans (8 * (l.write key rs).length + 8)
      (resting (l.write key rs ++ (List.replicate k ' ' ++ rest)) {} 0 0 [] true)
      ([.blockMappingStart, .key false, .scalar .plain key.toList, .value] ++
        (sequenceKinds l .blockSequenceStart ++ (rs.flatMap nextKinds).tail))
      (resting rest m' g' (l.column + 3) ((l.column + 1) :: recordMargins l) true) := by
  obtain ⟨fs, rs, rfl⟩ := List.exists_cons_of_ne_nil hne
  have hfs : fs ≠ [] := fun h => hrs (h ▸ List.mem_cons_self)
  obtain ⟨f, fs, rfl⟩ := List.exists_cons_of_ne_nil hfs
  have hmore : [] ∉ rs := fun h => hrs (List.mem_cons_of_mem _ h)
  obtain ⟨g₁, m₁, hm₁, hopening⟩ := scans_opening l hkey (l.writeField f ++ (l.writeMore fs ++
    (rs.flatMap l.writeRecord ++ (List.replicate k ' ' ++ rest))))
  obtain ⟨g₂, m₂, hm₂, hrecord⟩ := scans_record (m := m₁) (g := g₁) l
    (hplain _ List.mem_cons_self) hmore hk hrest hm₁
  obtain ⟨g₃, m₃, hm₃, hothers⟩ := scans_records (m := m₂) (g := g₂) l hmore
    (fun fs' h => hplain fs' (List.mem_cons_of_mem _ h)) hk hrest hm₂
  have hall := (hopening.append hrecord).append hothers
  refine ⟨g₃, m₃, hm₃, ?_⟩
  have hlen : (l.write key ((f :: fs) :: rs)).length = key.toList.length + 4 + l.column +
      (l.writeField f ++ l.writeMore fs).length + (rs.flatMap l.writeRecord).length := by
    simp only [Layout.write, List.flatMap_cons, Layout.writeRecord, List.length_append,
      List.length_cons, List.length_replicate]
    omega
  simp only [Layout.write, List.flatMap_cons, Layout.writeRecord, nextKinds, List.append_assoc,
    List.cons_append, List.nil_append, List.tail_cons] at hall hlen ⊢
  exact hall.mono (by omega)

end Records

theorem run_ended {t : Scanner} (hw : t.waiting = []) (he : t.ended = true) (fuel : Nat) :
    run fuel t = ([], none) := by
  cases fuel with
  | zero => rfl
  | succ fuel => simp only [run, hw, he, if_true]

theorem scans_document (l : Layout) {key : String} (hkey : IsWord key) {rs : List (List Field)}
    (hne : rs ≠ []) (hrs : [] ∉ rs) (hplain : ∀ fs ∈ rs, ∀ f ∈ fs, f.IsPlain) :
    ∃ t, t.waiting = [] ∧ t.ended = true ∧ Scans (8 * (l.write key rs).length + 14)
      (resting (l.write key rs) {} 0 0 [] true) (documentKinds l key rs) t := by
  have hstop : IsStop [] := fun _ hc => by cases hc
  obtain ⟨g', m', hm', hwritten⟩ := scans_written (k := 0) l hkey hne hrs hplain (Nat.zero_le _)
    hstop
  obtain ⟨t, hw, he, hend⟩ := scans_end (g := g') l hm'
  have hall := hwritten.append hend
  refine ⟨t, hw, he, ?_⟩
  simp only [documentKinds, ← tail_flatMap_nextKinds hne, List.replicate_zero, List.append_nil,
    List.append_assoc, List.cons_append, List.nil_append] at hall ⊢
  exact hall.mono (by omega)

end Scanner

theorem tokens_write (l : Layout) {key : String} (hkey : IsWord key) {rs : List (List Field)}
    (hne : rs ≠ []) (hrs : [] ∉ rs) (hplain : ∀ fs ∈ rs, ∀ f ∈ fs, f.IsPlain) :
    ∃ ts, tokens ⟨l.write key rs, none⟩ = (ts, none) ∧
      ts.map Token.kind = Scanner.documentKinds l key rs := by
  obtain ⟨t, hw, he, k, ts, hk, hts, hrun⟩ := Scanner.scans_document l hkey hne hrs hplain
  have hall := hrun (8 * (l.write key rs).length + 16 - k)
  rw [Nat.add_sub_cancel' (by omega), Scanner.run_ended hw he, List.append_nil] at hall
  exact ⟨ts, hall, hts⟩

end ResourceManifest.Yaml
