import UmbraDB.Lib.Trees
import UmbraDB.Lib.WorkList

/-! # The keys, the leaves and the height of a tree

* `Tree.all_iff` : what holds of all leaves and keys holds of each of them.
* `Tree.height` : how deep the values of a tree are nested. A leaf has height 0, and so has an array
  or an object without values.
* `search_height` : a depth-first search that labels each value with its depth finds one below
  `max` exactly if the tree is higher than `max`.
* `Tree.exceeds_iff` : so does the recursive test. -/

namespace UmbraDB.Lib.Trees

open UmbraDB.Lib.WorkList

universe u

variable {K L : Type u}

/-! ### Keys and leaves -/

mutual

/-- The leaves at every depth, in order. -/
def Tree.leaves : Tree K L → List L
  | .leaf l => [l]
  | .array items => items.leaves
  | .object fields => fields.leaves

def Items.leaves : Items K L → List L
  | .nil => []
  | .cons t rest => t.leaves ++ rest.leaves

def Fields.leaves : Fields K L → List L
  | .nil => []
  | .cons _ t rest => t.leaves ++ rest.leaves

end

mutual

/-- The keys of the objects at every depth, in order. -/
def Tree.allKeys : Tree K L → List K
  | .leaf _ => []
  | .array items => items.allKeys
  | .object fields => fields.allKeys

def Items.allKeys : Items K L → List K
  | .nil => []
  | .cons t rest => t.allKeys ++ rest.allKeys

def Fields.allKeys : Fields K L → List K
  | .nil => []
  | .cons k t rest => k :: (t.allKeys ++ rest.allKeys)

end

section All

variable {p : L → Bool} {q : K → Bool}

mutual

theorem Tree.all_eq : ∀ (t : Tree K L), t.all p q = (t.leaves.all p && t.allKeys.all q)
  | .leaf l => by simp [Tree.all, Tree.leaves, Tree.allKeys]
  | .array items => Items.all_eq items
  | .object fields => Fields.all_eq fields

theorem Items.all_eq : ∀ (items : Items K L),
    items.all p q = (items.leaves.all p && items.allKeys.all q)
  | .nil => rfl
  | .cons t rest => by
    rw [Items.all, Tree.all_eq t, Items.all_eq rest, Items.leaves, Items.allKeys, List.all_append,
      List.all_append]
    ac_rfl

theorem Fields.all_eq : ∀ (fields : Fields K L),
    fields.all p q = (fields.leaves.all p && fields.allKeys.all q)
  | .nil => rfl
  | .cons k t rest => by
    rw [Fields.all, Tree.all_eq t, Fields.all_eq rest, Fields.leaves, Fields.allKeys,
      List.all_append, List.all_cons, List.all_append]
    ac_rfl

end

/-- **All leaves and keys, one by one.** -/
theorem Tree.all_iff {t : Tree K L} :
    t.all p q = true ↔ (∀ l ∈ t.leaves, p l = true) ∧ ∀ k ∈ t.allKeys, q k = true := by
  rw [Tree.all_eq, Bool.and_eq_true, List.all_eq_true, List.all_eq_true]

end All

/-! ### Height -/

mutual

/-- How deep values are nested below the root. -/
def Tree.height : Tree K L → ℕ
  | .leaf _ => 0
  | .array items => items.height
  | .object fields => fields.height

/-- The height of an array with the items. -/
def Items.height : Items K L → ℕ
  | .nil => 0
  | .cons t rest => max (t.height + 1) rest.height

/-- The height of an object with the fields. -/
def Fields.height : Fields K L → ℕ
  | .nil => 0
  | .cons _ t rest => max (t.height + 1) rest.height

end

mutual

/-- The number of values in a tree. -/
def Tree.size : Tree K L → ℕ
  | .leaf _ => 1
  | .array items => items.size + 1
  | .object fields => fields.size + 1

def Items.size : Items K L → ℕ
  | .nil => 0
  | .cons t rest => t.size + rest.size

def Fields.size : Fields K L → ℕ
  | .nil => 0
  | .cons _ t rest => t.size + rest.size

end

def Items.toList : Items K L → List (Tree K L)
  | .nil => []
  | .cons t rest => t :: rest.toList

/-- `Object.values`. -/
def Fields.values : Fields K L → List (Tree K L)
  | .nil => []
  | .cons _ t rest => t :: rest.values

/-- The values right below the root. -/
def Tree.children : Tree K L → List (Tree K L)
  | .leaf _ => []
  | .array items => items.toList
  | .object fields => fields.values

theorem Items.size_eq : ∀ (items : Items K L), items.size = (items.toList.map Tree.size).sum
  | .nil => rfl
  | .cons t rest => by rw [Items.size, Items.toList, List.map_cons, List.sum_cons, rest.size_eq]

theorem Fields.size_eq : ∀ (fields : Fields K L), fields.size = (fields.values.map Tree.size).sum
  | .nil => rfl
  | .cons k t rest => by
    rw [Fields.size, Fields.values, List.map_cons, List.sum_cons, rest.size_eq]

theorem Tree.size_children (t : Tree K L) : (t.children.map Tree.size).sum < t.size := by
  rcases t with l | items | fields
  · exact Nat.one_pos
  · rw [Tree.children, Tree.size, items.size_eq]
    omega
  · rw [Tree.children, Tree.size, fields.size_eq]
    omega

theorem Items.lt_height_iff {d : ℕ} : ∀ (items : Items K L),
    d < items.height ↔ ∃ t ∈ items.toList, d ≤ t.height
  | .nil => by simp [Items.height, Items.toList]
  | .cons t rest => by
    rw [Items.height, Items.toList, lt_max_iff, rest.lt_height_iff]
    simp only [List.mem_cons, exists_eq_or_imp]
    exact or_congr_left Nat.lt_succ_iff

theorem Fields.lt_height_iff {d : ℕ} : ∀ (fields : Fields K L),
    d < fields.height ↔ ∃ t ∈ fields.values, d ≤ t.height
  | .nil => by simp [Fields.height, Fields.values]
  | .cons k t rest => by
    rw [Fields.height, Fields.values, lt_max_iff, rest.lt_height_iff]
    simp only [List.mem_cons, exists_eq_or_imp]
    exact or_congr_left Nat.lt_succ_iff

/-- A tree is higher than `d` by one of its children. -/
theorem Tree.lt_height_iff {d : ℕ} (t : Tree K L) :
    d < t.height ↔ ∃ c ∈ t.children, d ≤ c.height := by
  rcases t with l | items | fields
  · simp [Tree.height, Tree.children]
  · exact items.lt_height_iff
  · exact fields.lt_height_iff

theorem Tree.height_children {t c : Tree K L} (h : c ∈ t.children) : c.height < t.height :=
  t.lt_height_iff.mpr ⟨c, h, le_rfl⟩

mutual

theorem Tree.exceeds_iff {max : ℕ} : ∀ (t : Tree K L) (d : ℕ),
    t.exceeds max d = true ↔ max < d + t.height
  | .leaf l, d => by simp [Tree.exceeds, Tree.height]
  | .array items, d => by
    rw [Tree.exceeds, Tree.height, Bool.or_eq_true, decide_eq_true_eq, Items.exceeds_iff items]
    omega
  | .object fields, d => by
    rw [Tree.exceeds, Tree.height, Bool.or_eq_true, decide_eq_true_eq, Fields.exceeds_iff fields]
    omega

theorem Items.exceeds_iff {max : ℕ} : ∀ (items : Items K L) (d : ℕ),
    items.exceeds max (d + 1) = true ↔ 0 < items.height ∧ max < d + items.height
  | .nil, d => by simp [Items.exceeds, Items.height]
  | .cons t rest, d => by
    rw [Items.exceeds, Items.height, Bool.or_eq_true, Tree.exceeds_iff t, Items.exceeds_iff rest]
    omega

theorem Fields.exceeds_iff {max : ℕ} : ∀ (fields : Fields K L) (d : ℕ),
    fields.exceeds max (d + 1) = true ↔ 0 < fields.height ∧ max < d + fields.height
  | .nil, d => by simp [Fields.exceeds, Fields.height]
  | .cons k t rest, d => by
    rw [Fields.exceeds, Fields.height, Bool.or_eq_true, Tree.exceeds_iff t,
      Fields.exceeds_iff rest]
    omega

end

/-! ### A search by depth -/

/-- A value with its depth. -/
structure Labelled (K L : Type u) where
  v : Tree K L
  depth : ℕ

/-- Each value one level above the values right below it. -/
def labelled (K L : Type u) : Nodes (Labelled K L) where
  below n := n.v.children.map fun c => ⟨c, n.depth + 1⟩
  size n := n.v.size
  size_below n := by
    rw [List.map_map]
    exact n.v.size_children

/-- A value that is reached lies no deeper than the height allows. -/
theorem depth_le_of_reach {n m : Labelled K L}
    (h : Relation.ReflTransGen (labelled K L).Below n m) :
    m.depth + m.v.height ≤ n.depth + n.v.height := by
  induction h with
  | refl => exact le_rfl
  | @tail b c _ hbelow ih =>
    obtain ⟨t, ht, rfl⟩ := List.mem_map.mp hbelow
    have hlt := Tree.height_children ht
    simp only
    omega

/-- Some value lies as deep as the height says. -/
theorem exists_reach (d : ℕ) : ∀ (n : Labelled K L), n.v.height = d →
    ∃ m, Relation.ReflTransGen (labelled K L).Below n m ∧ m.depth = n.depth + d := by
  induction d with
  | zero => exact fun n _ => ⟨n, .refl, rfl⟩
  | succ d ih =>
    intro n hn
    obtain ⟨c, hc, hle⟩ := n.v.lt_height_iff.mp (show d < n.v.height by omega)
    have hlt := Tree.height_children hc
    obtain ⟨m, hreach, hdepth⟩ := ih ⟨c, n.depth + 1⟩ (show c.height = d by omega)
    refine ⟨m, .head (List.mem_map.mpr ⟨c, hc, rfl⟩) hreach, ?_⟩
    simp only at hdepth
    omega

/-- **The search measures the height.** -/
theorem search_height {max : ℕ} (t : Tree K L) :
    (labelled K L).search (fun n => decide (max < n.depth)) [⟨t, 0⟩] = true ↔ max < t.height := by
  rw [search_iff]
  constructor
  · rintro ⟨n, hn, m, hreach, hm⟩
    rw [List.mem_singleton.mp hn] at hreach
    have hle := depth_le_of_reach hreach
    have hlt := of_decide_eq_true hm
    simp only at hle
    omega
  · intro h
    obtain ⟨m, hreach, hdepth⟩ := exists_reach t.height ⟨t, 0⟩ rfl
    refine ⟨⟨t, 0⟩, List.mem_singleton_self _, m, hreach, decide_eq_true ?_⟩
    simp only at hdepth
    omega

end UmbraDB.Lib.Trees
