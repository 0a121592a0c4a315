import ResourceManifest.Proofs.Path.Parent
import ResourceManifest.Proofs.Text.Utf8

/-!
Entries as text. Where names are valid as text, an entry begins with the text of a directory
exactly if its names begin with the names of the directory. In any case it ends in the text of its
last name, which stands behind its last slash.
-/

set_option autoImplicit false

namespace ResourceManifest.Path

open Utf8

def directoryText (ds : List Name) : String := String.join (ds.map fun d => decodeLossy d ++ "/")

/-- What an entry is called in a directory, if it lies below it. -/
def entryBelow (ds : List Name) (e : String) : Option String :=
  (after? (directoryText ds).toList e.toList).map String.ofList

variable {d : Name} {ds ms ns : List Name}

theorem encode_append (s t : String) : encode (s ++ t) = encode s ++ encode t := by
  rw [encode, String.toList_append, encodeChars_append]
  rfl

theorem directoryText_cons (d : Name) (ds : List Name) :
    directoryText (d :: ds) = decodeLossy d ++ "/" ++ directoryText ds := by
  refine String.toList_injective ?_
  simp [directoryText, String.toList_join]

theorem entryText_cons (d : Name) (hns : ns ≠ []) :
    entryText (d :: ns) = decodeLossy d ++ "/" ++ entryText ns := by
  cases ns with
  | nil => exact absurd rfl hns
  | cons n ns => exact String.intercalate_cons_cons

theorem entryText_append (hms : ms ≠ []) :
    entryText (ds ++ ms) = directoryText ds ++ entryText ms := by
  induction ds with
  | nil => simp [directoryText, String.join]
  | cons d ds ih =>
    rw [List.cons_append, entryText_cons d (by simp [hms]), ih, directoryText_cons]
    simp only [String.append_assoc]

theorem encode_entryText (hv : ∀ n ∈ ns, (decode? n).isSome = true) :
    encode (entryText ns) = joinSegments ns := by
  induction ns with
  | nil => rfl
  | cons n ns ih =>
    have hn := encode_decodeLossy (hv n List.mem_cons_self)
    have hi := ih fun m hm => hv m (List.mem_cons_of_mem n hm)
    cases ns with
    | nil => simpa [entryText, joinSegments] using hn
    | cons m ms =>
      rw [entryText_cons n (by simp), encode_append, encode_append, hn, hi, List.append_assoc]
      rfl

theorem segments_encode_directoryText (hv : ∀ n ∈ ds, (decode? n).isSome = true)
    (hs : ∀ n ∈ ds, slash ∉ n) (x : Bytes) :
    segments (encode (directoryText ds) ++ x) = ds ++ segments x := by
  induction ds with
  | nil => rfl
  | cons d ds ih =>
    have hd := encode_decodeLossy (hv d List.mem_cons_self)
    have hi := ih (fun m hm => hv m (List.mem_cons_of_mem d hm))
      fun m hm => hs m (List.mem_cons_of_mem d hm)
    have hslash : encode "/" = [slash] := by decide
    rw [directoryText_cons, encode_append, encode_append, hd, hslash, List.append_assoc,
      List.append_assoc, List.singleton_append, segments_append_slash,
      segments_of_notMem (hs d List.mem_cons_self), hi, List.singleton_append, List.cons_append]

theorem entryBelow_entryText (hv : ∀ n ∈ ds ++ ns, (decode? n).isSome = true)
    (hs : ∀ n ∈ ds ++ ns, slash ∉ n) (hne : ns ≠ []) (hnd : ns ≠ ds) :
    entryBelow ds (entryText ns) = (after? ds ns).map entryText := by
  cases hc : after? ds ns with
  | some ms =>
    obtain rfl := after?_eq_some_iff.1 hc
    have hms : ms ≠ [] := by
      rintro rfl
      simp at hnd
    have ht : after? (directoryText ds).toList (entryText (ds ++ ms)).toList =
        some (entryText ms).toList := by
      rw [entryText_append hms, String.toList_append]
      exact after?_eq_some_iff.2 rfl
    simp [entryBelow, ht]
  | none =>
    cases ht : after? (directoryText ds).toList (entryText ns).toList with
    | none => simp [entryBelow, ht]
    | some x =>
      exfalso
      -- The text begins so, hence the bytes do, and cut at their slashes the names do.
      have hx := congrArg encodeChars (after?_eq_some_iff.1 ht)
      have hb : joinSegments ns = encode (directoryText ds) ++ encodeChars x := by
        rw [← encode_entryText fun n hn => hv n (List.mem_append_right ds hn), encode, hx,
          encodeChars_append]
        rfl
      have hns := segments_joinSegments hne fun n hn => hs n (List.mem_append_right ds hn)
      rw [hb, segments_encode_directoryText (fun n hn => hv n (List.mem_append_left ns hn))
        (fun n hn => hs n (List.mem_append_left ns hn))] at hns
      simp [after?_eq_some_iff.2 hns.symm] at hc

/-- The parts of an entry between its slashes. -/
def entryParts (e : String) : List String := (e.toList.splitOn '/').map String.ofList

theorem slash_notMem_decodeLossy {n : Name} (h : slash ∉ n) : '/' ∉ (decodeLossy n).toList :=
  fun hc => h (utf8EncodeChar_subset_of_mem_decodeLossy hc (by decide) (by decide))

theorem entryParts_entryText (hne : ns ≠ []) (hs : ∀ n ∈ ns, slash ∉ n) :
    entryParts (entryText ns) = ns.map decodeLossy := by
  have hnone : ∀ part ∈ (ns.map decodeLossy).map String.toList, '/' ∉ part := by
    intro part hpart
    obtain ⟨text, htext, rfl⟩ := List.mem_map.1 hpart
    obtain ⟨n, hn, rfl⟩ := List.mem_map.1 htext
    exact slash_notMem_decodeLossy (hs n hn)
  have hsplit : (entryText ns).toList.splitOn '/' = (ns.map decodeLossy).map String.toList := by
    rw [entryText, String.toList_intercalate]
    exact List.splitOn_intercalate '/' hnone (by simpa using hne)
  simp [entryParts, hsplit, Function.comp_def]

theorem mem_entryParts_of_append {x : List Char} {e : String} (hx : '/' ∉ x)
    (h : x ++ ['/'] <+: e.toList) : String.ofList x ∈ entryParts e := by
  obtain ⟨r, hr⟩ := h
  rw [entryParts, ← hr, List.append_assoc, List.singleton_append,
    List.splitOn_append_cons_self_of_not_mem hx r]
  exact List.mem_cons_self

/-- An entry as it looks relative to a directory: no part between slashes is empty, and it begins
neither at the top nor in the present directory. -/
structure IsRelative (e : String) : Prop where
  parts_ne_empty : "" ∉ entryParts e
  not_root : ¬ ['/'] <+: e.toList
  not_here : ¬ ['.', '/'] <+: e.toList

theorem isRelative_entryText (hne : ns ≠ []) (hn : ∀ n ∈ ns, IsSegment n) :
    IsRelative (entryText ns) := by
  have hparts := entryParts_entryText hne fun n hm => (hn n hm).noSlash
  have hempty : "" ∉ entryParts (entryText ns) := by
    rw [hparts]
    intro hm
    obtain ⟨n, hn', he⟩ := List.mem_map.1 hm
    exact decodeLossy_ne_empty (hn n hn').ne_nil he
  refine ⟨hempty, fun h => hempty (mem_entryParts_of_append (x := []) (by simp) h), fun h => ?_⟩
  have hdot := mem_entryParts_of_append (x := ['.']) (by simp) h
  rw [hparts] at hdot
  obtain ⟨n, hn', he⟩ := List.mem_map.1 hdot
  -- Only the bytes of a dot are read as one.
  exact (hn n hn').ne_dot (eq_encode_of_decodeLossy he (by simp))

theorem map_encode_entryParts (hne : ns ≠ []) (hn : ∀ n ∈ ns, IsSegment n)
    (hv : ∀ n ∈ ns, (decode? n).isSome = true) :
    (entryParts (entryText ns)).map encode = ns := by
  rw [entryParts_entryText hne fun n hm => (hn n hm).noSlash, List.map_map]
  refine (List.map_congr_left fun n hm => ?_).trans ns.map_id
  exact encode_decodeLossy (hv n hm)

/-- What stands behind the last slash of an entry. -/
def lastPart (e : String) : String :=
  match splitLast '/' e.toList with
  | some (_, t) => String.ofList t
  | none => e

theorem lastPart_append_slash (s t : String) : lastPart (s ++ "/" ++ t) = lastPart t := by
  have htext : (s ++ "/" ++ t).toList = s.toList ++ '/' :: t.toList := by simp
  unfold lastPart
  rw [htext]
  cases ht : splitLast '/' t.toList with
  | none =>
    rw [splitLast_append_cons (splitLast_eq_none_iff.1 ht)]
    simp
  | some x =>
    obtain ⟨before, behind⟩ := x
    obtain ⟨htext', hbehind⟩ := splitLast_eq_some_iff.1 ht
    have hcut : splitLast '/' (s.toList ++ '/' :: t.toList) =
        some (s.toList ++ '/' :: before, behind) :=
      splitLast_eq_some_iff.2 ⟨by simp [htext'], hbehind⟩
    rw [hcut]

theorem lastPart_entryText_snoc {n : Name} (hn : slash ∉ n) (ns : List Name) :
    lastPart (entryText (ns ++ [n])) = decodeLossy n := by
  induction ns with
  | nil =>
    have htext : entryText ([] ++ [n]) = decodeLossy n := String.intercalate_singleton
    rw [htext, lastPart, splitLast_eq_none_iff.2 (slash_notMem_decodeLossy hn)]
  | cons m ns ih => rw [List.cons_append, entryText_cons m (by simp), lastPart_append_slash, ih]

theorem join_encode_entryText {p : Path} (hne : ns ≠ []) (hn : ∀ n ∈ ns, IsSegment n)
    (hv : ∀ n ∈ ns, (decode? n).isSome = true) :
    p.join (encode (entryText ns)) = p.joinAll ns := by
  rw [encode_entryText hv, joinAll_eq_join hne hn]

end ResourceManifest.Path
