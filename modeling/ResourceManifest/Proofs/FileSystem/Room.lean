import ResourceManifest.Proofs.FileSystem.Write
import ResourceManifest.Proofs.FileTree.Order

set_option autoImplicit false

namespace ResourceManifest

namespace Naming

/-- All names picked are of one length, as long as no more names than these are taken. -/
def Uniform (naming : Naming) (bound : Nat) : Prop :=
  ∃ k, ∀ taken, taken.length ≤ bound → (naming.pick taken).length = k

theorem firstFree_le (taken : List Name) : firstFree taken ≤ taken.length := by
  unfold firstFree
  cases hf : (List.range (taken.length + 1)).find? fun i => !taken.contains (number i) with
  | none => exact Nat.zero_le _
  | some i =>
    have hlt := List.mem_range.1 (List.mem_of_find?_eq_some hf)
    rw [Option.getD_some]
    omega

theorem length_number_of_lt {i : Nat} (hi : i < 1000000) : (number i).length = 10 := by
  have hdigits : (Nat.toDigits 10 i).length ≤ 6 :=
    (Nat.length_toDigits_le_iff (by decide) (by decide)).2 (by omega)
  rw [number_eq_map, List.length_map, List.length_append, digits, List.length_append,
    List.length_replicate, show ".tmp".toList.length = 4 from rfl]
  omega

theorem uniform_numbered {bound : Nat} (h : bound < 1000000) : numbered.Uniform bound := by
  refine ⟨10, fun taken htaken => length_number_of_lt ?_⟩
  have hle := firstFree_le taken
  omega

end Naming

namespace FileSystem

variable {fs fs' : FileSystem} {dir : Path}

theorem length_nodes_put (t : FileTree) (l : Location) (n : Node) :
    (t.put l n).nodes.length ≤ t.nodes.length + 1 := by
  unfold FileTree.put
  split
  · exact Nat.succ_le_succ (List.length_filter_le _ _)
  · exact Nat.le_succ _

theorem exists_temporaryPath_le (fs : FileSystem) (dir : Path) :
    ∃ taken, taken.length ≤ fs.tree.nodes.length ∧
      fs.temporaryPath dir = (fs.fromTop dir).join (fs.naming.pick taken) := by
  refine ⟨_, ?_, rfl⟩
  split
  · next names h =>
    unfold list at h
    cases hl : fs.look .follow (fs.fromTop dir) with
    | error f => simp [hl, bind, Except.bind] at h
    | ok r =>
      simp only [hl, bind, Except.bind] at h
      split at h
      · cases h
        exact fs.tree.length_names_le r.1
      · cases h
  · exact Nat.zero_le _

theorem HasRoom.of_uniform {bound : Nat} (hu : fs.naming.Uniform bound)
    (hle : fs.tree.nodes.length ≤ bound) (hle' : fs'.tree.nodes.length ≤ bound)
    (hcwd : fs'.cwd = fs.cwd) (hnaming : fs'.naming = fs.naming) (hd : dir.bytes ≠ [])
    (h : fs.HasRoom dir) : fs'.HasRoom dir := by
  obtain ⟨taken, htaken, hpath⟩ := fs.exists_temporaryPath_le dir
  obtain ⟨taken', htaken', hpath'⟩ := fs'.exists_temporaryPath_le dir
  have htop : fs'.fromTop dir = fs.fromTop dir := by rw [fromTop, fromTop, hcwd]
  rw [htop, hnaming] at hpath'
  have hlen : (fs.naming.pick taken').length = (fs.naming.pick taken).length := by
    obtain ⟨k, hk⟩ := hu
    rw [hk taken' (by omega), hk taken (by omega)]
  have hb := fs.fromTop_bytes_ne_nil hd
  have hlast (taken : List Name) : ((fs.fromTop dir).join (fs.naming.pick taken)).names.getLast? =
      some (fs.naming.pick taken) := by
    rw [Path.names_join hb (fs.naming.pick_ne_nil taken) (fs.naming.plain taken).1,
      List.getLast?_concat]
  have hjoin : ((fs.fromTop dir).join (fs.naming.pick taken')).bytes.length =
      ((fs.fromTop dir).join (fs.naming.pick taken)).bytes.length := by
    unfold Path.join
    split <;> simp [hlen]
  obtain ⟨hshort, hname⟩ := h
  rw [hpath] at hshort hname
  rw [hlast] at hname
  refine ⟨by rwa [hpath', hjoin], fun n hn => ?_⟩
  rw [hpath', hlast, Option.mem_some_iff] at hn
  rw [← hn, hlen]
  exact hname _ rfl

end FileSystem

end ResourceManifest
