import Mathlib.Data.List.Chain
import Mathlib.Data.String.Basic
import RoleAccess.Role.Graph

/-!
The parent edges of a roster as relations. `Lists` goes from a role to the ids it lists, whether or
not there are such roles, and `Parent` to those that exist. What can be learned about a role upwards
only depends on the ids that can be reached by `Lists`, and rosters that differ in one role keep
every way to that role.
-/

set_option autoImplicit false
set_option relaxedAutoImplicit false

namespace RoleAccess

namespace Roster

/-- The role with the first id lists the second one among its parents. -/
def Lists (r : Roster) (child parent : String) : Prop :=
  ∃ role, r.find? child = some role ∧ parent ∈ role.parents

/-- The parents that a role lists, whether or not there are such roles. -/
def listed (r : Roster) (id : String) : List String := (r.find? id).elim [] Role.parents

/-- A parent edge between two roles of the roster. -/
def Parent (r : Roster) (child parent : String) : Prop :=
  r.Lists child parent ∧ r.contains parent = true

/-- The second id can be reached from the first by listed parents. -/
abbrev Names (r : Roster) : String → String → Prop := Relation.ReflTransGen r.Lists

/-- The second id can be reached from the first by parent edges between roles. -/
abbrev Reaches (r : Roster) : String → String → Prop := Relation.ReflTransGen r.Parent

/-- No role is above itself. -/
def Acyclic (r : Roster) : Prop := ∀ id, ¬Relation.TransGen r.Parent id id

/-- The ids above a role along one chain of parents, the nearest first. -/
def IsChainAbove (r : Roster) (id : String) (above : List String) : Prop :=
  List.IsChain r.Parent (id :: above)

/-- Two rosters that differ in at most one role. -/
def SameExcept (r r' : Roster) (changed : String) : Prop :=
  ∀ id, id ≠ changed → r'.find? id = r.find? id

theorem listed_of_find? {r : Roster} {id : String} {found : Option Role} (h : r.find? id = found) :
    r.listed id = found.elim [] Role.parents :=
  congrArg (Option.elim · [] Role.parents) h

theorem mem_listed_iff {r : Roster} {id parent : String} :
    parent ∈ r.listed id ↔ r.Lists id parent := by
  unfold listed Lists
  cases r.find? id <;> simp

theorem Reaches.names {r : Roster} {id other : String} (h : r.Reaches id other) :
    r.Names id other :=
  Relation.ReflTransGen.mono (fun _ _ hedge ↦ hedge.1) _ _ h

theorem contains_of_find? {r : Roster} {id : String} {role : Role} (h : r.find? id = some role) :
    r.contains id = true := by
  rw [contains, h]
  rfl

theorem exists_of_contains {r : Roster} {id : String} (h : r.contains id = true) :
    ∃ role, r.find? id = some role :=
  Option.isSome_iff_exists.mp h

theorem mem_ids_iff {r : Roster} {id : String} : id ∈ r.ids ↔ r.contains id = true := by
  rw [ids, Std.TreeMap.mem_keys, Std.TreeMap.mem_iff_isSome_getElem?]
  rfl

theorem pairwise_ids (r : Roster) : r.ids.Pairwise (· < ·) :=
  Std.TreeMap.ordered_keys.imp fun h ↦ Std.LawfulLTCmp.eq_lt_iff_lt.mp h

theorem map_id_roles (r : Roster) : r.roles.map Role.id = r.ids := by
  rw [roles, ids, ← Std.TreeMap.map_fst_toList_eq_keys, List.map_map]
  refine List.map_congr_left fun entry hmem ↦ ?_
  exact r.keyed entry.1 entry.2 (Std.TreeMap.mem_toList_iff_getElem?_eq_some.mp hmem)

theorem pairwise_roles (r : Roster) : r.roles.Pairwise fun a b ↦ a.id < b.id :=
  List.pairwise_map.mp (r.map_id_roles ▸ r.pairwise_ids)

theorem Lists.congr {r r' : Roster} {child parent : String} (h : r.Lists child parent)
    (heq : r'.find? child = r.find? child) : r'.Lists child parent := by
  obtain ⟨role, hrole, hmem⟩ := h
  exact ⟨role, heq.trans hrole, hmem⟩

/-- Two roles that are parents of each other, one of which lists another id without a role. -/
def orphanedLoop : Roster := .ofList [⟨"a", [], ["b"], true⟩, ⟨"b", [], ["a", "x"], true⟩]

example : orphanedLoop.Lists "b" "x" ∧ ¬orphanedLoop.Parent "b" "x" :=
  ⟨⟨⟨"b", [], ["a", "x"], true⟩, rfl, by decide⟩, fun h ↦ Bool.false_ne_true h.2⟩

/-- From a role only roles are reached. -/
theorem contains_of_reaches {r : Roster} {id other : String} (hid : r.contains id = true)
    (h : r.Reaches id other) : r.contains other = true := by
  obtain rfl | ⟨child, -, hedge⟩ := h.cases_tail
  · exact hid
  · exact hedge.2

/-- Where the last id is a role, so are all on the way to it. -/
theorem reaches_of_names {r : Roster} {start other : String} (h : r.Names start other)
    (hother : r.contains other = true) : r.Reaches start other := by
  induction h with
  | refl => exact .refl
  | tail _ hlists ih =>
    obtain ⟨role, hrole, -⟩ := id hlists
    exact (ih (contains_of_find? hrole)).tail ⟨hlists, hother⟩

/-- A change of one role leaves every way upwards intact as far as that role. -/
theorem SameExcept.names {r r' : Roster} {changed id other : String}
    (hsame : r.SameExcept r' changed) (h : r.Names id other) :
    r'.Names id other ∨ r'.Names id changed := by
  induction h with
  | refl => exact Or.inl .refl
  | @tail middle last _ hedge ih =>
    rcases ih with hmiddle | hchanged
    · by_cases heq : middle = changed
      · exact Or.inr (heq ▸ hmiddle)
      · exact Or.inl (hmiddle.tail (hedge.congr (hsame middle heq)))
    · exact Or.inr hchanged

/-- A role from which the change cannot be reached sees the same roles. -/
theorem SameExcept.find?_of_not_names {r r' : Roster} {changed id : String}
    (hsame : r.SameExcept r' changed) (hfar : ¬r.Names id changed) {other : String}
    (h : r.Names id other) : r'.find? other = r.find? other :=
  hsame other fun heq ↦ hfar (heq ▸ h)

/-! ### Changes of one role -/

theorem sameExcept_insert (r : Roster) (role : Role) : r.SameExcept (r.insert role) role.id := by
  intro id hne
  rw [find?_insert, if_neg hne.symm]

theorem sameExcept_erase (r : Roster) (gone : String) : r.SameExcept (r.erase gone) gone := by
  intro id hne
  rw [find?_erase, if_neg hne.symm]

theorem sameExcept_addParent (r : Roster) (child parent : String) :
    r.SameExcept (r.addParent child parent) child := by
  intro id hne
  unfold addParent
  cases hchild : r.find? child with
  | none => rfl
  | some role =>
    obtain rfl : role.id = child := id_of_find? hchild
    dsimp only
    split
    · rfl
    · exact sameExcept_insert r (role.withParent parent) id hne

end Roster

namespace RoleGraph

theorem mem_parents_iff {g : RoleGraph} {child parent : String} :
    parent ∈ g.parents child ↔ g.roles.Parent child parent := by
  simp only [parents, listedParents, List.mem_filter, find?]
  unfold Roster.Parent Roster.Lists contains
  cases g.roles.find? child <;> simp

theorem mem_listedParents_iff {g : RoleGraph} {child parent : String} :
    parent ∈ g.listedParents child ↔ g.roles.Lists child parent := by
  simp only [listedParents, find?]
  unfold Roster.Lists
  cases g.roles.find? child <;> simp

end RoleGraph

end RoleAccess
