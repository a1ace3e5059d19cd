import Fsyncer.Base.AlikeTrees
import Fsyncer.Base.Machine

/-! What lies below a directory of a tree, path by path, and what the changes of a
tree do to it. Each change of one object is a change of the view at one path. -/
namespace Fsyncer.FileTree
open Fsyncer.Machine

/-- What lies below a directory: the inode that each path leads to, and what is
shown of it. -/
structure View (α : Type) where
  number : Path → Option ℕ
  shown : Path → Option α

def View.set (v : View α) (path : Path) (number : Option ℕ) (shown : Option α) : View α :=
  ⟨Function.update v.number path number, Function.update v.shown path shown⟩

/-- What is shown belongs to the inode. -/
def View.Coherent (v : View α) : Prop := ∀ path other, v.number path = v.number other → v.shown path = v.shown other

/-- The same paths show the same, and the same paths share an inode. -/
structure View.Alike (v v' : View α) : Prop where
  shown : ∀ path, v.shown path = v'.shown path
  groups : ∀ path other, path ≠ [] → other ≠ [] → (v.number path = v.number other ↔ v'.number path = v'.number other)

namespace Tree

/-- What is shown of the inodes below `root`. -/
def view (shown : Inode → α) (root : Path) (t : Tree) : View α where
  number path := t.names.find (root ++ path)
  shown path := (t.inode? (root ++ path)).map shown

section Views
variable {t : Tree} {root path source dest : Path} {shown : Inode → α}

theorem coherent_view : (t.view shown root).Coherent := by
  intro path other same
  have same : t.names.find (root ++ path) = t.names.find (root ++ other) := same
  show (t.inode? (root ++ path)).map shown = (t.inode? (root ++ other)).map shown
  rw [inode?, inode?, inodeIn, inodeIn, same]

theorem shown_eq_none : (t.view shown root).shown path = none ↔ (t.view shown root).number path = none :=
  Option.map_eq_none_iff.trans inode?_eq_none

/-- A view that differs at one path. -/
theorem view_ext (v : View α) (number : ∀ other, (t.view shown root).number other = if path = other then n else v.number other)
    (nodes : ∀ other, (t.view shown root).shown other = if path = other then k else v.shown other) :
    t.view shown root = v.set path n k := by
  have numbers : (t.view shown root).number = Function.update v.number path n := by
    funext other
    rw [number, Function.update_apply]
    simp only [eq_comm]
  have values : (t.view shown root).shown = Function.update v.shown path k := by
    funext other
    rw [nodes, Function.update_apply]
    simp only [eq_comm]
  unfold View.set
  rw [← numbers, ← values]

theorem append_eq_iff : root ++ path = root ++ other ↔ path = other := List.append_right_inj root

theorem view_attach (shown : Inode → α) (absent : t.names.find (root ++ path) = none)
    (parent : t.isDir (root ++ path).dropLast = true) (node : Inode) :
    (t.attach (root ++ path) node absent parent).view shown root =
      (t.view shown root).set path (some t.inodes.length) (some (shown node)) := by
  refine view_ext _ (fun other => ?_) fun other => ?_
  · show (t.attach (root ++ path) node absent parent).names.find (root ++ other) = _
    rw [find_attach]
    simp only [append_eq_iff]
    rfl
  · show ((t.attach (root ++ path) node absent parent).inode? (root ++ other)).map shown = _
    rw [inode?_attach]
    simp only [append_eq_iff]
    split <;> rfl

theorem view_detach (shown : Inode → α) (proper : root ++ path ≠ []) (alone : t.childless (root ++ path) = true) :
    (t.detach (root ++ path) proper alone).view shown root = (t.view shown root).set path none none := by
  refine view_ext _ (fun other => ?_) fun other => ?_
  · show (t.detach (root ++ path) proper alone).names.find (root ++ other) = _
    rw [find_detach]
    simp only [append_eq_iff]
    rfl
  · show ((t.detach (root ++ path) proper alone).inode? (root ++ other)).map shown = _
    rw [inode?_detach]
    simp only [append_eq_iff]
    split <;> rfl

/-- A change of an inode that does not show. -/
theorem view_amend_of_fixed {f : Inode → Inode} (kept : ∀ node, (f node).isDir = node.isDir)
    (fixed : ∀ node, shown (f node) = shown node) : (t.amend i f kept).view shown root = t.view shown root := by
  have values : ((t.amend i f kept).view shown root).shown = (t.view shown root).shown := by
    funext path
    show ((t.amend i f kept).inode? (root ++ path)).map shown = (t.inode? (root ++ path)).map shown
    rw [inode?_amend]
    split
    · rw [Option.map_map]
      exact congrArg (Option.map · _) (funext fixed)
    · rfl
  unfold view at values ⊢
  rw [View.mk.injEq]
  exact ⟨rfl, values⟩

theorem view_join (shown : Inode → α) (held : t.names.find (root ++ source) = some i)
    (kind : t.isDir (root ++ source) = false) (absent : t.names.find (root ++ dest) = none)
    (parent : t.isDir (root ++ dest).dropLast = true) :
    (t.join (root ++ source) (root ++ dest) i held kind absent parent).view shown root =
      (t.view shown root).set dest ((t.view shown root).number source) ((t.view shown root).shown source) := by
  have found (other : Path) : (t.join (root ++ source) (root ++ dest) i held kind absent parent).names.find (root ++ other) =
      if dest = other then t.names.find (root ++ source) else t.names.find (root ++ other) := by
    show (t.names.insert (root ++ dest) i).find (root ++ other) = _
    rw [SortedMap.find_insert, held]
    simp only [append_eq_iff]
  refine view_ext _ found fun other => ?_
  show ((t.join _ _ i held kind absent parent).inode? (root ++ other)).map shown = _
  rw [inode?, inodeIn, found]
  split <;> rfl

theorem prefix_append_iff : root ++ path <+: root ++ other ↔ path <+: other := List.prefix_append_right_inj root

/-- Nothing lies below the source or the target, so only two paths change. -/
theorem view_move (shown : Inode → α) (apart : Apart (root ++ source) (root ++ dest)) (parent : t.isDir (root ++ dest).dropLast = true)
    (alone : ∀ other, source <+: other → other ≠ source → t.names.find (root ++ other) = none)
    (bare : ∀ other, dest <+: other → other ≠ dest → t.names.find (root ++ other) = none) :
    (t.move (root ++ source) (root ++ dest) apart parent).view shown root =
      ((t.view shown root).set source none none).set dest ((t.view shown root).number source) ((t.view shown root).shown source) := by
  have differ : source ≠ dest := by
    rintro rfl
    exact apart.1 List.prefix_rfl
  have found (other : Path) : (t.move (root ++ source) (root ++ dest) apart parent).names.find (root ++ other) =
      if dest = other then t.names.find (root ++ source) else if source = other then none
        else t.names.find (root ++ other) := by
    show (movedNames t.names (root ++ source) (root ++ dest)).find (root ++ other) = _
    rw [find_movedNames_of_apart apart]
    simp only [prefix_append_iff]
    by_cases here : dest = other
    · subst here
      rw [if_pos List.prefix_rfl, if_pos rfl, List.drop_length, List.append_nil]
    · rw [if_neg here]
      by_cases below : dest <+: other
      · rw [if_pos below]
        obtain ⟨rest, rfl⟩ := below
        have rest_ne : rest ≠ [] := by
          rintro rfl
          exact here (List.append_nil dest).symm
        have empty : t.names.find (root ++ (source ++ rest)) = none :=
          alone _ (List.prefix_append source rest) fun same => rest_ne (List.append_right_eq_self.mp same)
        rw [← List.append_assoc, List.drop_left, List.append_assoc, empty]
        split
        · rfl
        · rw [List.append_assoc]
          exact (bare _ (List.prefix_append dest rest) fun same => rest_ne (List.append_right_eq_self.mp same)).symm
      · rw [if_neg below]
        by_cases there : source = other
        · rw [if_pos there, if_pos (there ▸ List.prefix_rfl)]
        · rw [if_neg there]
          split
          · next under => exact (alone other under (Ne.symm there)).symm
          · rfl
  refine view_ext _ (fun other => ?_) fun other => ?_
  · refine (found other).trans ?_
    split
    · rfl
    · show _ = Function.update (t.view shown root).number source none other
      rw [Function.update_apply]
      simp only [eq_comm]
      rfl
  · show ((t.move _ _ apart parent).inode? (root ++ other)).map shown = _
    rw [inode?, inodeIn, found]
    split
    · rfl
    · show _ = Function.update (t.view shown root).shown source none other
      rw [Function.update_apply]
      simp only [eq_comm]
      split <;> rfl

/-! ### Lookups -/

/-- A path in front of another that leads somewhere is a directory. -/
theorem find_below (missing : t.childless path = true) (below : path <+: other) (differ : other ≠ path) :
    t.names.find other = none := by
  by_contra present
  obtain ⟨rest, rfl⟩ := below
  cases rest with
  | nil => exact differ (List.append_nil path)
  | cons name rest =>
    have child : t.names.find (path ++ [name]) = none :=
      childless_iff.mp missing (path ++ [name]) (by simp) List.dropLast_concat
    rcases List.eq_nil_or_concat rest with rfl | ⟨front, last, rfl⟩
    · exact present child
    · obtain ⟨j, found⟩ := Option.ne_none_iff_exists'.mp present
      have parent := t.closed _ j (by simp) found
      have above : t.isDir (path ++ [name]) = true := by
        refine isDir_above parent ⟨front, ?_⟩
        rw [List.concat_eq_append, ← List.cons_append, ← List.append_assoc, List.dropLast_concat, List.append_assoc,
          List.singleton_append]
      exact find_ne_none above child

/-- Two names of one inode are left alone. -/
theorem rename_cases (renamed : t.rename source dest flags = .ok after) :
    t.names.find source ≠ none ∧ (t.names.find source = t.names.find dest ∧ after = t ∨
      t.names.find source ≠ t.names.find dest ∧ t.childless dest = true ∧
        ∃ apart parent, after = t.move source dest apart parent) := by
  unfold rename at renamed
  obtain ⟨_, renamed⟩ := of_guard renamed
  obtain ⟨present, renamed⟩ := of_guard renamed
  refine ⟨present, ?_⟩
  by_cases parent : t.isDir dest.dropLast = true
  · rw [dif_pos parent] at renamed
    obtain ⟨_, renamed⟩ := of_guard renamed
    obtain ⟨_, renamed⟩ := of_guard renamed
    by_cases same : t.names.find source = t.names.find dest
    · rw [if_pos same] at renamed
      cases renamed
      exact .inl ⟨same, rfl⟩
    · rw [if_neg same] at renamed
      obtain ⟨_, renamed⟩ := of_guard renamed
      obtain ⟨_, renamed⟩ := of_guard renamed
      obtain ⟨_, renamed⟩ := of_guard renamed
      obtain ⟨_, renamed⟩ := of_guard renamed
      obtain ⟨bare, renamed⟩ := of_guard renamed
      by_cases apart : Apart source dest
      · rw [dif_pos apart] at renamed
        cases renamed
        exact .inr ⟨same, by simpa using bare, apart, parent, rfl⟩
      · rw [dif_neg apart] at renamed
        cases renamed
  · rw [dif_neg parent] at renamed
    cases renamed

end Views

end Tree

end Fsyncer.FileTree
