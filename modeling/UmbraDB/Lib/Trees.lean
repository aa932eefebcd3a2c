import Mathlib.Data.List.Basic
import Mathlib.Tactic.Basic

/-! # Trees with ordered fields

A tree has leaves `L`, arrays, and objects whose fields `K` come in some order. Two trees are equal
up to the order of their fields if they denote the same `Value`, where an object is a partial
function of its keys.

* `Tree.denote` : the value of a tree. Equal values mean equality up to the order of the fields.
* `Tree.sortKeys` : the fields of every object in a given order. It changes no `denote`, if keys are
  distinct (`denote_sortKeys`), and keeps what holds of all leaves and keys (`Tree.all_sortKeys`),
  the distinctness of keys and the depth.
* `Tree.bind` : a tree in place of every leaf.
* `Fields.get`, `Fields.set` : the fields of an object by their keys. -/

namespace UmbraDB.Lib.Trees

universe u

mutual

inductive Tree (K L : Type u)
  | leaf (l : L)
  | array (items : Items K L)
  | object (fields : Fields K L)

inductive Items (K L : Type u)
  | nil
  | cons (t : Tree K L) (rest : Items K L)

inductive Fields (K L : Type u)
  | nil
  | cons (k : K) (t : Tree K L) (rest : Fields K L)

end

/-- A tree up to the order of the fields of its objects. -/
inductive Value (K L : Type u)
  | leaf (l : L)
  | array (items : List (Value K L))
  | object (fields : K → Option (Value K L))

variable {K L : Type u}

def Fields.keys : Fields K L → List K
  | .nil => []
  | .cons k _ rest => k :: rest.keys

/-! ### Building arrays and objects -/

def Items.append : Items K L → Items K L → Items K L
  | .nil, items => items
  | .cons t rest, items => .cons t (rest.append items)

theorem Items.append_assoc : ∀ (a b c : Items K L),
    (a.append b).append c = a.append (b.append c)
  | .nil, _, _ => rfl
  | .cons t a, b, c => by rw [Items.append, Items.append, Items.append, Items.append_assoc a b c]

def Fields.append : Fields K L → Fields K L → Fields K L
  | .nil, fields => fields
  | .cons k t rest, fields => .cons k t (rest.append fields)

theorem Fields.append_assoc : ∀ (a b c : Fields K L),
    (a.append b).append c = a.append (b.append c)
  | .nil, _, _ => rfl
  | .cons k t a, b, c => by
    rw [Fields.append, Fields.append, Fields.append, Fields.append_assoc a b c]

theorem Fields.keys_append : ∀ (a b : Fields K L), (a.append b).keys = a.keys ++ b.keys
  | .nil, _ => rfl
  | .cons k t a, b => by rw [Fields.append, Fields.keys, Fields.keys_append a b]; rfl

section Set

variable [DecidableEq K]

/-- The value of a field. -/
def Fields.get : Fields K L → K → Option (Tree K L)
  | .nil, _ => none
  | .cons k t rest, k' => if k' = k then some t else rest.get k'

/-- Setting a field: in its place, or at the end. -/
def Fields.set (k : K) (t : Tree K L) : Fields K L → Fields K L
  | .nil => .cons k t .nil
  | .cons k' t' rest => if k' = k then .cons k' t rest else .cons k' t' (rest.set k t)

theorem Fields.set_of_not_mem {k : K} {t : Tree K L} : ∀ {fields : Fields K L},
    k ∉ fields.keys → fields.set k t = fields.append (.cons k t .nil)
  | .nil, _ => rfl
  | .cons k' t' rest, h => by
    rw [Fields.keys, List.mem_cons, not_or] at h
    rw [Fields.set, if_neg (Ne.symm h.1), Fields.append, Fields.set_of_not_mem h.2]

end Set

section Denote

variable [DecidableEq K]

mutual

def Tree.denote : Tree K L → Value K L
  | .leaf l => .leaf l
  | .array items => .array items.denote
  | .object fields => .object fields.denote

def Items.denote : Items K L → List (Value K L)
  | .nil => []
  | .cons t rest => t.denote :: rest.denote

def Fields.denote : Fields K L → K → Option (Value K L)
  | .nil, _ => none
  | .cons k t rest, k' => if k' = k then some t.denote else rest.denote k'

end

theorem Fields.denote_eq_get : ∀ (fields : Fields K L) (k : K),
    fields.denote k = (fields.get k).map Tree.denote
  | .nil, _ => rfl
  | .cons k t rest, k' => by
    rw [Fields.denote, Fields.get]
    split_ifs
    · rfl
    · exact Fields.denote_eq_get rest k'

theorem Fields.get_eq_none : ∀ {fields : Fields K L} {k : K}, k ∉ fields.keys →
    fields.get k = none
  | .nil, _, _ => rfl
  | .cons k' t rest, k, h => by
    rw [Fields.keys, List.mem_cons, not_or] at h
    rw [Fields.get, if_neg h.1, Fields.get_eq_none h.2]

/-- Two objects with the same values under the keys that occur in them. -/
theorem Fields.denote_congr {fields fields' : Fields K L} {keys : List K}
    (h : ∀ k ∈ fields.keys, k ∈ keys) (h' : ∀ k ∈ fields'.keys, k ∈ keys)
    (heq : ∀ k ∈ keys, (fields.get k).map Tree.denote = (fields'.get k).map Tree.denote) :
    fields.denote = fields'.denote := by
  funext k
  rw [Fields.denote_eq_get, Fields.denote_eq_get]
  by_cases hk : k ∈ keys
  · exact heq k hk
  · rw [Fields.get_eq_none fun hmem => hk (h k hmem),
      Fields.get_eq_none fun hmem => hk (h' k hmem)]

end Denote

/-! ### Properties of all leaves and keys -/

mutual

/-- Every leaf satisfies `p` and every key satisfies `q`. -/
def Tree.all (p : L → Bool) (q : K → Bool) : Tree K L → Bool
  | .leaf l => p l
  | .array items => items.all p q
  | .object fields => fields.all p q

def Items.all (p : L → Bool) (q : K → Bool) : Items K L → Bool
  | .nil => true
  | .cons t rest => t.all p q && rest.all p q

def Fields.all (p : L → Bool) (q : K → Bool) : Fields K L → Bool
  | .nil => true
  | .cons k t rest => q k && t.all p q && rest.all p q

end

section All

variable {p p' : L → Bool} {q q' : K → Bool}

mutual

theorem Tree.all_and : ∀ (t : Tree K L),
    t.all (fun l => p l && p' l) (fun k => q k && q' k) = (t.all p q && t.all p' q')
  | .leaf _ => rfl
  | .array items => Items.all_and items
  | .object fields => Fields.all_and fields

theorem Items.all_and : ∀ (items : Items K L),
    items.all (fun l => p l && p' l) (fun k => q k && q' k) = (items.all p q && items.all p' q')
  | .nil => rfl
  | .cons t rest => by
    rw [Items.all, Items.all, Items.all, Tree.all_and, Items.all_and]
    ac_rfl

theorem Fields.all_and : ∀ (fields : Fields K L),
    fields.all (fun l => p l && p' l) (fun k => q k && q' k) = (fields.all p q && fields.all p' q')
  | .nil => rfl
  | .cons k t rest => by
    rw [Fields.all, Fields.all, Fields.all, Tree.all_and, Fields.all_and]
    ac_rfl

end

mutual

theorem Tree.all_mono (hp : ∀ l, p l = true → p' l = true) (hq : ∀ k, q k = true → q' k = true) :
    ∀ (t : Tree K L), t.all p q = true → t.all p' q' = true
  | .leaf l, h => hp l h
  | .array items, h => Items.all_mono hp hq items h
  | .object fields, h => Fields.all_mono hp hq fields h

theorem Items.all_mono (hp : ∀ l, p l = true → p' l = true) (hq : ∀ k, q k = true → q' k = true) :
    ∀ (items : Items K L), items.all p q = true → items.all p' q' = true
  | .nil, _ => rfl
  | .cons t rest, h => by
    rw [Items.all, Bool.and_eq_true] at h
    rw [Items.all, Tree.all_mono hp hq t h.1, Items.all_mono hp hq rest h.2]
    rfl

theorem Fields.all_mono (hp : ∀ l, p l = true → p' l = true)
    (hq : ∀ k, q k = true → q' k = true) :
    ∀ (fields : Fields K L), fields.all p q = true → fields.all p' q' = true
  | .nil, _ => rfl
  | .cons k t rest, h => by
    rw [Fields.all, Bool.and_eq_true, Bool.and_eq_true] at h
    rw [Fields.all, hq k h.1.1, Tree.all_mono hp hq t h.1.2, Fields.all_mono hp hq rest h.2]
    rfl

end

mutual

theorem Tree.all_true : ∀ (t : Tree K L), t.all (fun _ => true) (fun _ => true) = true
  | .leaf _ => rfl
  | .array items => Items.all_true items
  | .object fields => Fields.all_true fields

theorem Items.all_true : ∀ (items : Items K L), items.all (fun _ => true) (fun _ => true) = true
  | .nil => rfl
  | .cons t rest => by rw [Items.all, Tree.all_true t, Items.all_true rest]; rfl

theorem Fields.all_true : ∀ (fields : Fields K L),
    fields.all (fun _ => true) (fun _ => true) = true
  | .nil => rfl
  | .cons k t rest => by rw [Fields.all, Tree.all_true t, Fields.all_true rest]; rfl

end

end All

section Distinct

variable [DecidableEq K]

mutual

/-- The keys of every object are distinct. -/
def Tree.distinct : Tree K L → Bool
  | .leaf _ => true
  | .array items => items.distinct
  | .object fields => fields.distinct

def Items.distinct : Items K L → Bool
  | .nil => true
  | .cons t rest => t.distinct && rest.distinct

def Fields.distinct : Fields K L → Bool
  | .nil => true
  | .cons k t rest => !rest.keys.contains k && t.distinct && rest.distinct

end

end Distinct

mutual

/-- Some value of the tree, itself at depth `d`, lies deeper than `max`. -/
def Tree.exceeds (max : ℕ) : ℕ → Tree K L → Bool
  | d, .leaf _ => decide (max < d)
  | d, .array items => decide (max < d) || items.exceeds max (d + 1)
  | d, .object fields => decide (max < d) || fields.exceeds max (d + 1)

def Items.exceeds (max : ℕ) : ℕ → Items K L → Bool
  | _, .nil => false
  | d, .cons t rest => t.exceeds max d || rest.exceeds max d

def Fields.exceeds (max : ℕ) : ℕ → Fields K L → Bool
  | _, .nil => false
  | d, .cons _ t rest => t.exceeds max d || rest.exceeds max d

end

/-! ### Sorting the fields -/

/-- The field before the first one that it does not come after. -/
def Fields.insert (le : K → K → Bool) (k : K) (t : Tree K L) : Fields K L → Fields K L
  | .nil => .cons k t .nil
  | .cons k' t' rest =>
    if le k k' then .cons k t (.cons k' t' rest) else .cons k' t' (rest.insert le k t)

mutual

def Tree.sortKeys (le : K → K → Bool) : Tree K L → Tree K L
  | .leaf l => .leaf l
  | .array items => .array (items.sortKeys le)
  | .object fields => .object (fields.sortKeys le)

def Items.sortKeys (le : K → K → Bool) : Items K L → Items K L
  | .nil => .nil
  | .cons t rest => .cons (t.sortKeys le) (rest.sortKeys le)

def Fields.sortKeys (le : K → K → Bool) : Fields K L → Fields K L
  | .nil => .nil
  | .cons k t rest => (rest.sortKeys le).insert le k (t.sortKeys le)

end

variable {le : K → K → Bool}

theorem mem_keys_insert {k k' : K} {t : Tree K L} : ∀ (fields : Fields K L),
    k' ∈ (fields.insert le k t).keys ↔ k' = k ∨ k' ∈ fields.keys
  | .nil => by simp [Fields.insert, Fields.keys]
  | .cons k₀ t₀ rest => by
    rw [Fields.insert]
    split
    · simp [Fields.keys]
    · simp only [Fields.keys, List.mem_cons, mem_keys_insert rest]
      tauto

theorem mem_keys_sortKeys {k' : K} : ∀ {fields : Fields K L},
    k' ∈ (fields.sortKeys le).keys ↔ k' ∈ fields.keys
  | .nil => by simp [Fields.sortKeys]
  | .cons k t rest => by
    rw [Fields.sortKeys, mem_keys_insert, mem_keys_sortKeys, Fields.keys, List.mem_cons]

theorem Fields.all_insert {p : L → Bool} {q : K → Bool} {k : K} {t : Tree K L} :
    ∀ {fields : Fields K L},
      (fields.insert le k t).all p q = (q k && t.all p q && fields.all p q)
  | .nil => by simp [Fields.insert, Fields.all]
  | .cons k₀ t₀ rest => by
    rw [Fields.insert]
    split
    · rfl
    · rw [Fields.all, Fields.all_insert, Fields.all]
      ac_rfl

mutual

theorem Tree.all_sortKeys {p : L → Bool} {q : K → Bool} : ∀ (t : Tree K L),
    (t.sortKeys le).all p q = t.all p q
  | .leaf l => rfl
  | .array items => by rw [Tree.sortKeys, Tree.all, Tree.all, Items.all_sortKeys]
  | .object fields => by rw [Tree.sortKeys, Tree.all, Tree.all, Fields.all_sortKeys]

theorem Items.all_sortKeys {p : L → Bool} {q : K → Bool} : ∀ (items : Items K L),
    (items.sortKeys le).all p q = items.all p q
  | .nil => rfl
  | .cons t rest => by
    rw [Items.sortKeys, Items.all, Items.all, Tree.all_sortKeys, Items.all_sortKeys]

theorem Fields.all_sortKeys {p : L → Bool} {q : K → Bool} : ∀ (fields : Fields K L),
    (fields.sortKeys le).all p q = fields.all p q
  | .nil => rfl
  | .cons k t rest => by
    rw [Fields.sortKeys, Fields.all_insert, Fields.all, Tree.all_sortKeys, Fields.all_sortKeys]

end

theorem Fields.exceeds_insert {max d : ℕ} {k : K} {t : Tree K L} : ∀ {fields : Fields K L},
    (fields.insert le k t).exceeds max d = (t.exceeds max d || fields.exceeds max d)
  | .nil => by simp [Fields.insert, Fields.exceeds]
  | .cons k₀ t₀ rest => by
    rw [Fields.insert]
    split
    · rfl
    · rw [Fields.exceeds, Fields.exceeds_insert, Fields.exceeds]
      ac_rfl

mutual

theorem Tree.exceeds_sortKeys {max : ℕ} : ∀ (d : ℕ) (t : Tree K L),
    (t.sortKeys le).exceeds max d = t.exceeds max d
  | _, .leaf l => rfl
  | d, .array items => by
    rw [Tree.sortKeys, Tree.exceeds, Tree.exceeds, Items.exceeds_sortKeys]
  | d, .object fields => by
    rw [Tree.sortKeys, Tree.exceeds, Tree.exceeds, Fields.exceeds_sortKeys]

theorem Items.exceeds_sortKeys {max : ℕ} : ∀ (d : ℕ) (items : Items K L),
    (items.sortKeys le).exceeds max d = items.exceeds max d
  | _, .nil => rfl
  | d, .cons t rest => by
    rw [Items.sortKeys, Items.exceeds, Items.exceeds, Tree.exceeds_sortKeys,
      Items.exceeds_sortKeys]

theorem Fields.exceeds_sortKeys {max : ℕ} : ∀ (d : ℕ) (fields : Fields K L),
    (fields.sortKeys le).exceeds max d = fields.exceeds max d
  | _, .nil => rfl
  | d, .cons k t rest => by
    rw [Fields.sortKeys, Fields.exceeds_insert, Fields.exceeds, Tree.exceeds_sortKeys,
      Fields.exceeds_sortKeys]

end

section

variable [DecidableEq K]

theorem Fields.distinct_insert {k : K} {t : Tree K L} : ∀ {fields : Fields K L},
    fields.distinct = true → k ∉ fields.keys → t.distinct = true →
      (fields.insert le k t).distinct = true
  | .nil, _, _, ht => by simp [Fields.insert, Fields.distinct, Fields.keys, ht]
  | .cons k₀ t₀ rest, hd, hk, ht => by
    rw [Fields.insert]
    simp only [Fields.keys, List.mem_cons, not_or] at hk
    split
    · rw [Fields.distinct, hd, ht]
      simp [Fields.keys, hk.1, hk.2]
    · simp only [Fields.distinct, Bool.and_eq_true, Bool.not_eq_true', List.contains_eq_mem,
        decide_eq_false_iff_not] at hd ⊢
      refine ⟨⟨?_, hd.1.2⟩, Fields.distinct_insert hd.2 hk.2 ht⟩
      rw [mem_keys_insert, not_or]
      exact ⟨fun e => hk.1 e.symm, hd.1.1⟩

mutual

theorem Tree.distinct_sortKeys : ∀ (t : Tree K L), t.distinct = true →
    (t.sortKeys le).distinct = true
  | .leaf _, _ => rfl
  | .array items, h => Items.distinct_sortKeys items h
  | .object fields, h => Fields.distinct_sortKeys fields h

theorem Items.distinct_sortKeys : ∀ (items : Items K L), items.distinct = true →
    (items.sortKeys le).distinct = true
  | .nil, _ => rfl
  | .cons t rest, h => by
    rw [Items.distinct, Bool.and_eq_true] at h
    rw [Items.sortKeys, Items.distinct, Tree.distinct_sortKeys t h.1,
      Items.distinct_sortKeys rest h.2]
    rfl

theorem Fields.distinct_sortKeys : ∀ (fields : Fields K L), fields.distinct = true →
    (fields.sortKeys le).distinct = true
  | .nil, _ => rfl
  | .cons k t rest, h => by
    simp only [Fields.distinct, Bool.and_eq_true, Bool.not_eq_true', List.contains_eq_mem,
      decide_eq_false_iff_not] at h
    exact Fields.distinct_insert (Fields.distinct_sortKeys rest h.2)
      (fun hk => h.1.1 (mem_keys_sortKeys.mp hk)) (Tree.distinct_sortKeys t h.1.2)

end

theorem Fields.denote_insert {k : K} {t : Tree K L} : ∀ {fields : Fields K L},
    k ∉ fields.keys → ∀ k', (fields.insert le k t).denote k' =
      if k' = k then some t.denote else fields.denote k'
  | .nil, _, k' => by simp [Fields.insert, Fields.denote]
  | .cons k₀ t₀ rest, hk, k' => by
    simp only [Fields.keys, List.mem_cons, not_or] at hk
    rw [Fields.insert]
    split
    · simp [Fields.denote]
    · simp only [Fields.denote, Fields.denote_insert hk.2]
      by_cases h0 : k' = k₀
      · subst h0
        simp [Ne.symm hk.1]
      · simp [h0]

mutual

/-- Sorting changes only the order of the fields. -/
theorem Tree.denote_sortKeys : ∀ (t : Tree K L), t.distinct = true →
    (t.sortKeys le).denote = t.denote
  | .leaf l, _ => rfl
  | .array items, h => by
    rw [Tree.sortKeys, Tree.denote, Tree.denote, Items.denote_sortKeys items h]
  | .object fields, h => by
    rw [Tree.sortKeys, Tree.denote, Tree.denote, Fields.denote_sortKeys fields h]

theorem Items.denote_sortKeys : ∀ (items : Items K L), items.distinct = true →
    (items.sortKeys le).denote = items.denote
  | .nil, _ => rfl
  | .cons t rest, h => by
    rw [Items.distinct, Bool.and_eq_true] at h
    rw [Items.sortKeys, Items.denote, Items.denote, Tree.denote_sortKeys t h.1,
      Items.denote_sortKeys rest h.2]

theorem Fields.denote_sortKeys : ∀ (fields : Fields K L), fields.distinct = true →
    (fields.sortKeys le).denote = fields.denote
  | .nil, _ => rfl
  | .cons k t rest, h => by
    simp only [Fields.distinct, Bool.and_eq_true, Bool.not_eq_true', List.contains_eq_mem,
      decide_eq_false_iff_not] at h
    have hk : k ∉ (rest.sortKeys le).keys := fun hk => h.1.1 (mem_keys_sortKeys.mp hk)
    funext k'
    rw [Fields.sortKeys, Fields.denote_insert hk, Fields.denote, Tree.denote_sortKeys t h.1.2,
      Fields.denote_sortKeys rest h.2]

end

end

/-! ### Trees in place of leaves -/

variable {M N : Type u}

mutual

def Tree.bind (f : L → Tree K M) : Tree K L → Tree K M
  | .leaf l => f l
  | .array items => .array (items.bind f)
  | .object fields => .object (fields.bind f)

def Items.bind (f : L → Tree K M) : Items K L → Items K M
  | .nil => .nil
  | .cons t rest => .cons (t.bind f) (rest.bind f)

def Fields.bind (f : L → Tree K M) : Fields K L → Fields K M
  | .nil => .nil
  | .cons k t rest => .cons k (t.bind f) (rest.bind f)

end

section

variable {f : L → Tree K M} {g : M → Tree K N}

mutual

theorem Tree.bind_bind : ∀ (t : Tree K L), (t.bind f).bind g = t.bind fun l => (f l).bind g
  | .leaf _ => rfl
  | .array items => by rw [Tree.bind, Tree.bind, Tree.bind, Items.bind_bind]
  | .object fields => by rw [Tree.bind, Tree.bind, Tree.bind, Fields.bind_bind]

theorem Items.bind_bind : ∀ (items : Items K L),
    (items.bind f).bind g = items.bind fun l => (f l).bind g
  | .nil => rfl
  | .cons t rest => by
    rw [Items.bind, Items.bind, Items.bind, Tree.bind_bind, Items.bind_bind]

theorem Fields.bind_bind : ∀ (fields : Fields K L),
    (fields.bind f).bind g = fields.bind fun l => (f l).bind g
  | .nil => rfl
  | .cons k t rest => by
    rw [Fields.bind, Fields.bind, Fields.bind, Tree.bind_bind, Fields.bind_bind]

end

end

section

variable {f g : L → Tree K M} {p : L → Bool} {q : K → Bool}

mutual

theorem Tree.bind_congr (h : ∀ l, p l = true → f l = g l) : ∀ (t : Tree K L),
    t.all p q = true → t.bind f = t.bind g
  | .leaf l, ha => h l ha
  | .array items, ha => by rw [Tree.bind, Tree.bind, Items.bind_congr h items ha]
  | .object fields, ha => by rw [Tree.bind, Tree.bind, Fields.bind_congr h fields ha]

theorem Items.bind_congr (h : ∀ l, p l = true → f l = g l) : ∀ (items : Items K L),
    items.all p q = true → items.bind f = items.bind g
  | .nil, _ => rfl
  | .cons t rest, ha => by
    rw [Items.all, Bool.and_eq_true] at ha
    rw [Items.bind, Items.bind, Tree.bind_congr h t ha.1, Items.bind_congr h rest ha.2]

theorem Fields.bind_congr (h : ∀ l, p l = true → f l = g l) : ∀ (fields : Fields K L),
    fields.all p q = true → fields.bind f = fields.bind g
  | .nil, _ => rfl
  | .cons k t rest, ha => by
    rw [Fields.all, Bool.and_eq_true, Bool.and_eq_true] at ha
    rw [Fields.bind, Fields.bind, Tree.bind_congr h t ha.1.2, Fields.bind_congr h rest ha.2]

end

end

theorem Fields.insert_bind {f : L → Tree K M} {k : K} {t : Tree K L} : ∀ (fields : Fields K L),
    (fields.bind f).insert le k (t.bind f) = (fields.insert le k t).bind f
  | .nil => rfl
  | .cons k' t' rest => by
    rw [Fields.bind, Fields.insert, Fields.insert]
    split
    · rfl
    · rw [Fields.bind, Fields.insert_bind]

section

variable {f : L → Tree K M}

mutual

/-- Sorting comes before or after, where the new trees are sorted. -/
theorem Tree.sortKeys_bind (h : ∀ l, (f l).sortKeys le = f l) : ∀ (t : Tree K L),
    (t.bind f).sortKeys le = (t.sortKeys le).bind f
  | .leaf l => h l
  | .array items => by
    rw [Tree.bind, Tree.sortKeys, Items.sortKeys_bind h, Tree.sortKeys, Tree.bind]
  | .object fields => by
    rw [Tree.bind, Tree.sortKeys, Fields.sortKeys_bind h, Tree.sortKeys, Tree.bind]

theorem Items.sortKeys_bind (h : ∀ l, (f l).sortKeys le = f l) : ∀ (items : Items K L),
    (items.bind f).sortKeys le = (items.sortKeys le).bind f
  | .nil => rfl
  | .cons t rest => by
    rw [Items.bind, Items.sortKeys, Tree.sortKeys_bind h, Items.sortKeys_bind h, Items.sortKeys,
      Items.bind]

theorem Fields.sortKeys_bind (h : ∀ l, (f l).sortKeys le = f l) : ∀ (fields : Fields K L),
    (fields.bind f).sortKeys le = (fields.sortKeys le).bind f
  | .nil => rfl
  | .cons k t rest => by
    rw [Fields.bind, Fields.sortKeys, Tree.sortKeys_bind h, Fields.sortKeys_bind h,
      Fields.insert_bind, Fields.sortKeys]

end

end

section Leaves

variable {f : L → M} {p : M → Bool} {q : K → Bool}

mutual

theorem Tree.all_bind_leaf : ∀ (t : Tree K L),
    (t.bind fun l => .leaf (f l)).all p q = t.all (fun l => p (f l)) q
  | .leaf _ => rfl
  | .array items => Items.all_bind_leaf items
  | .object fields => Fields.all_bind_leaf fields

theorem Items.all_bind_leaf : ∀ (items : Items K L),
    (items.bind fun l => .leaf (f l)).all p q = items.all (fun l => p (f l)) q
  | .nil => rfl
  | .cons t rest => by
    rw [Items.bind, Items.all, Items.all, Tree.all_bind_leaf t, Items.all_bind_leaf rest]

theorem Fields.all_bind_leaf : ∀ (fields : Fields K L),
    (fields.bind fun l => .leaf (f l)).all p q = fields.all (fun l => p (f l)) q
  | .nil => rfl
  | .cons k t rest => by
    rw [Fields.bind, Fields.all, Fields.all, Tree.all_bind_leaf t, Fields.all_bind_leaf rest]

end

mutual

theorem Tree.exceeds_bind_leaf {max : ℕ} : ∀ (d : ℕ) (t : Tree K L),
    (t.bind fun l => .leaf (f l)).exceeds max d = t.exceeds max d
  | _, .leaf _ => rfl
  | d, .array items => by
    rw [Tree.bind, Tree.exceeds, Tree.exceeds, Items.exceeds_bind_leaf (d + 1) items]
  | d, .object fields => by
    rw [Tree.bind, Tree.exceeds, Tree.exceeds, Fields.exceeds_bind_leaf (d + 1) fields]

theorem Items.exceeds_bind_leaf {max : ℕ} : ∀ (d : ℕ) (items : Items K L),
    (items.bind fun l => .leaf (f l)).exceeds max d = items.exceeds max d
  | _, .nil => rfl
  | d, .cons t rest => by
    rw [Items.bind, Items.exceeds, Items.exceeds, Tree.exceeds_bind_leaf d t,
      Items.exceeds_bind_leaf d rest]

theorem Fields.exceeds_bind_leaf {max : ℕ} : ∀ (d : ℕ) (fields : Fields K L),
    (fields.bind fun l => .leaf (f l)).exceeds max d = fields.exceeds max d
  | _, .nil => rfl
  | d, .cons k t rest => by
    rw [Fields.bind, Fields.exceeds, Fields.exceeds, Tree.exceeds_bind_leaf d t,
      Fields.exceeds_bind_leaf d rest]

end

mutual

theorem Tree.bind_leaf : ∀ (t : Tree K L), t.bind Tree.leaf = t
  | .leaf _ => rfl
  | .array items => congrArg Tree.array (Items.bind_leaf items)
  | .object fields => congrArg Tree.object (Fields.bind_leaf fields)

theorem Items.bind_leaf : ∀ (items : Items K L), items.bind Tree.leaf = items
  | .nil => rfl
  | .cons t rest => by rw [Items.bind, Tree.bind_leaf t, Items.bind_leaf rest]

theorem Fields.bind_leaf : ∀ (fields : Fields K L), fields.bind Tree.leaf = fields
  | .nil => rfl
  | .cons k t rest => by rw [Fields.bind, Tree.bind_leaf t, Fields.bind_leaf rest]

end

mutual

/-- What holds of all leaves of the new trees and of all keys holds of the whole. -/
theorem Tree.all_bind {g : L → Tree K M} {r : L → Bool}
    (h : ∀ l, r l = true → (g l).all p q = true) : ∀ (t : Tree K L), t.all r q = true →
      (t.bind g).all p q = true
  | .leaf l, ht => h l ht
  | .array items, ht => Items.all_bind h items ht
  | .object fields, ht => Fields.all_bind h fields ht

theorem Items.all_bind {g : L → Tree K M} {r : L → Bool}
    (h : ∀ l, r l = true → (g l).all p q = true) : ∀ (items : Items K L), items.all r q = true →
      (items.bind g).all p q = true
  | .nil, _ => rfl
  | .cons t rest, ht => by
    rw [Items.all, Bool.and_eq_true] at ht
    rw [Items.bind, Items.all, Tree.all_bind h t ht.1, Items.all_bind h rest ht.2]
    rfl

theorem Fields.all_bind {g : L → Tree K M} {r : L → Bool}
    (h : ∀ l, r l = true → (g l).all p q = true) : ∀ (fields : Fields K L),
      fields.all r q = true → (fields.bind g).all p q = true
  | .nil, _ => rfl
  | .cons k t rest, ht => by
    rw [Fields.all, Bool.and_eq_true, Bool.and_eq_true] at ht
    rw [Fields.bind, Fields.all, ht.1.1, Tree.all_bind h t ht.1.2, Fields.all_bind h rest ht.2]
    rfl

end

end Leaves

theorem Fields.all_append {K L : Type} {p : L → Bool} {q : K → Bool} : ∀ (a b : Fields K L),
    (a.append b).all p q = (a.all p q && b.all p q)
  | .nil, b => by simp [Fields.append, Fields.all]
  | .cons k t rest, b => by
    simp only [Fields.append, Fields.all, Fields.all_append rest b, Bool.and_assoc]

/-! ### Fields by their keys, and equality up to order -/

theorem Fields.keys_bind {f : L → Tree K M} : ∀ (fields : Fields K L),
    (fields.bind f).keys = fields.keys
  | .nil => rfl
  | .cons k t rest => by rw [Fields.bind, Fields.keys, Fields.keys, Fields.keys_bind rest]

section Lookup

variable [DecidableEq K]

theorem Fields.get_append (k : K) : ∀ (a b : Fields K L),
    (a.append b).get k = (a.get k).or (b.get k)
  | .nil, _ => rfl
  | .cons k' t rest, b => by
    rw [Fields.append, Fields.get, Fields.get, Fields.get_append k rest b]
    split_ifs
    · rfl
    · rfl

theorem Fields.get_insert {k : K} {t : Tree K L} : ∀ {fields : Fields K L},
    k ∉ fields.keys → ∀ k', (fields.insert le k t).get k' =
      if k' = k then some t else fields.get k'
  | .nil, _, _ => rfl
  | .cons k₀ t₀ rest, hk, k' => by
    rw [Fields.keys, List.mem_cons, not_or] at hk
    rw [Fields.insert]
    split
    · rfl
    · rw [Fields.get, Fields.get, Fields.get_insert hk.2]
      by_cases h0 : k' = k₀
      · rw [if_pos h0, if_pos h0, if_neg fun h => hk.1 (h.symm.trans h0)]
      · rw [if_neg h0, if_neg h0]

theorem Fields.distinct_cons {k : K} {t : Tree K L} {rest : Fields K L} :
    (Fields.cons k t rest).distinct = true ↔
      k ∉ rest.keys ∧ t.distinct = true ∧ rest.distinct = true := by
  rw [Fields.distinct, Bool.and_eq_true, Bool.and_eq_true, Bool.not_eq_true',
    List.contains_eq_mem, decide_eq_false_iff_not, and_assoc]

/-- What lies under a key has distinct keys too. -/
theorem Fields.distinct_get {k : K} {t : Tree K L} : ∀ {fields : Fields K L},
    fields.distinct = true → fields.get k = some t → t.distinct = true
  | .nil, _, h => by cases h
  | .cons k₀ t₀ rest, hd, h => by
    obtain ⟨-, ht, hrest⟩ := Fields.distinct_cons.mp hd
    rw [Fields.get] at h
    split_ifs at h
    · cases h
      exact ht
    · exact Fields.distinct_get hrest h

theorem Fields.get_sortKeys (k : K) : ∀ {fields : Fields K L}, fields.distinct = true →
    (fields.sortKeys le).get k = (fields.get k).map (Tree.sortKeys le)
  | .nil, _ => rfl
  | .cons k₀ t rest, h => by
    obtain ⟨hk, -, hrest⟩ := Fields.distinct_cons.mp h
    rw [Fields.sortKeys, Fields.get_insert fun hmem => hk (mem_keys_sortKeys.mp hmem), Fields.get,
      Fields.get_sortKeys k hrest]
    split_ifs
    · rfl
    · rfl

theorem Fields.get_bind {f : L → Tree K M} (k : K) : ∀ (fields : Fields K L),
    (fields.bind f).get k = (fields.get k).map (Tree.bind f)
  | .nil => rfl
  | .cons k₀ t rest => by
    rw [Fields.bind, Fields.get, Fields.get, Fields.get_bind k rest]
    split_ifs
    · rfl
    · rfl

mutual

theorem Tree.distinct_bind {f : L → Tree K M} (h : ∀ l, (f l).distinct = true) :
    ∀ (t : Tree K L), t.distinct = true → (t.bind f).distinct = true
  | .leaf l, _ => h l
  | .array items, ht => Items.distinct_bind h items ht
  | .object fields, ht => Fields.distinct_bind h fields ht

theorem Items.distinct_bind {f : L → Tree K M} (h : ∀ l, (f l).distinct = true) :
    ∀ (items : Items K L), items.distinct = true → (items.bind f).distinct = true
  | .nil, _ => rfl
  | .cons t rest, ht => by
    rw [Items.distinct, Bool.and_eq_true] at ht
    rw [Items.bind, Items.distinct, Tree.distinct_bind h t ht.1, Items.distinct_bind h rest ht.2]
    rfl

theorem Fields.distinct_bind {f : L → Tree K M} (h : ∀ l, (f l).distinct = true) :
    ∀ (fields : Fields K L), fields.distinct = true → (fields.bind f).distinct = true
  | .nil, _ => rfl
  | .cons k t rest, ht => by
    obtain ⟨hk, ht, hrest⟩ := Fields.distinct_cons.mp ht
    rw [Fields.bind, Fields.distinct_cons, Fields.keys_bind]
    exact ⟨hk, Tree.distinct_bind h t ht, Fields.distinct_bind h rest hrest⟩

end

theorem Fields.denote_eq_none {fields : Fields K L} {k : K} (h : k ∉ fields.keys) :
    fields.denote k = none := by
  rw [Fields.denote_eq_get, Fields.get_eq_none h]
  rfl

/-- Two objects that are equal up to order and have the same first key. -/
theorem Fields.denote_cons_inj {k : K} {s t : Tree K L} {a b : Fields K L} (ha : k ∉ a.keys)
    (hb : k ∉ b.keys) (h : (Fields.cons k s a).denote = (Fields.cons k t b).denote) :
    s.denote = t.denote ∧ a.denote = b.denote := by
  have hat : ∀ k', (Fields.cons k s a).denote k' = (Fields.cons k t b).denote k' :=
    fun k' => congrFun h k'
  constructor
  · have hk := hat k
    rw [Fields.denote, Fields.denote, if_pos rfl, if_pos rfl] at hk
    exact Option.some.inj hk
  · funext k'
    by_cases hk' : k' = k
    · rw [hk', Fields.denote_eq_none ha, Fields.denote_eq_none hb]
    · have hk := hat k'
      rwa [Fields.denote, Fields.denote, if_neg hk', if_neg hk'] at hk

end Lookup

section Denote

variable [DecidableEq K]

mutual

/-- What replaces the leaves does not depend on the order of the fields. -/
theorem Tree.denote_bind_congr {f : L → Tree K M} : ∀ (t t' : Tree K L), t.denote = t'.denote →
    (t.bind f).denote = (t'.bind f).denote
  | .leaf l, .leaf l', h => by
    rw [Tree.denote, Tree.denote, Value.leaf.injEq] at h
    rw [h]
  | .array items, .array items', h => by
    rw [Tree.denote, Tree.denote, Value.array.injEq] at h
    rw [Tree.bind, Tree.bind, Tree.denote, Tree.denote, Items.denote_bind_congr items items' h]
  | .object fields, .object fields', h => by
    rw [Tree.denote, Tree.denote, Value.object.injEq] at h
    rw [Tree.bind, Tree.bind, Tree.denote, Tree.denote]
    congr 1
    funext k
    have hk := congrFun h k
    rw [Fields.denote_eq_get, Fields.denote_eq_get] at hk
    rw [Fields.denote_eq_get, Fields.denote_eq_get, Fields.get_bind, Fields.get_bind]
    rcases hg : fields.get k with _ | t
    · rw [hg] at hk
      rw [Option.map_eq_none_iff.mp hk.symm]
    · rw [hg] at hk
      obtain ⟨t', ht', hd⟩ := Option.map_eq_some_iff.mp hk.symm
      rw [ht']
      exact congrArg some (Fields.denote_bind_get fields hg t' hd.symm)
  | .leaf _, .array _, h => by cases h
  | .leaf _, .object _, h => by cases h
  | .array _, .leaf _, h => by cases h
  | .array _, .object _, h => by cases h
  | .object _, .leaf _, h => by cases h
  | .object _, .array _, h => by cases h

theorem Items.denote_bind_congr {f : L → Tree K M} : ∀ (items items' : Items K L),
    items.denote = items'.denote → (items.bind f).denote = (items'.bind f).denote
  | .nil, .nil, _ => rfl
  | .cons t rest, .cons t' rest', h => by
    rw [Items.denote, Items.denote, List.cons.injEq] at h
    rw [Items.bind, Items.bind, Items.denote, Items.denote, Tree.denote_bind_congr t t' h.1,
      Items.denote_bind_congr rest rest' h.2]
  | .nil, .cons _ _, h => by cases h
  | .cons _ _, .nil, h => by cases h

theorem Fields.denote_bind_get {f : L → Tree K M} : ∀ (fields : Fields K L) {k : K}
    {t : Tree K L}, fields.get k = some t → ∀ t' : Tree K L, t.denote = t'.denote →
      (t.bind f).denote = (t'.bind f).denote
  | .nil, _, _, h, _, _ => by cases h
  | .cons k₀ t₀ rest, k, t, h, t', hd => by
    rw [Fields.get] at h
    split_ifs at h
    · cases h
      exact Tree.denote_bind_congr t₀ t' hd
    · exact Fields.denote_bind_get rest h t' hd

end

mutual

/-- Leaves that are changed are seen, whatever the order of the fields. -/
theorem Tree.denote_bind_leaf {f : L → L} [DecidableEq L] : ∀ (t : Tree K L),
    t.distinct = true → (t.bind fun l => .leaf (f l)).denote = t.denote →
      t.all (fun l => f l == l) (fun _ => true) = true
  | .leaf l, _, h => by
    rw [Tree.bind, Tree.denote, Tree.denote, Value.leaf.injEq] at h
    rw [Tree.all, h]
    exact beq_self_eq_true l
  | .array items, hd, h => by
    rw [Tree.bind, Tree.denote, Tree.denote, Value.array.injEq] at h
    exact Items.denote_bind_leaf items hd h
  | .object fields, hd, h => by
    rw [Tree.bind, Tree.denote, Tree.denote, Value.object.injEq] at h
    exact Fields.denote_bind_leaf fields hd h

theorem Items.denote_bind_leaf {f : L → L} [DecidableEq L] : ∀ (items : Items K L),
    items.distinct = true → (items.bind fun l => .leaf (f l)).denote = items.denote →
      items.all (fun l => f l == l) (fun _ => true) = true
  | .nil, _, _ => rfl
  | .cons t rest, hd, h => by
    rw [Items.distinct, Bool.and_eq_true] at hd
    rw [Items.bind, Items.denote, Items.denote, List.cons.injEq] at h
    rw [Items.all, Tree.denote_bind_leaf t hd.1 h.1, Items.denote_bind_leaf rest hd.2 h.2]
    rfl

theorem Fields.denote_bind_leaf {f : L → L} [DecidableEq L] : ∀ (fields : Fields K L),
    fields.distinct = true → (fields.bind fun l => .leaf (f l)).denote = fields.denote →
      fields.all (fun l => f l == l) (fun _ => true) = true
  | .nil, _, _ => rfl
  | .cons k t rest, hd, h => by
    obtain ⟨hk, ht, hrest⟩ := Fields.distinct_cons.mp hd
    rw [Fields.bind] at h
    obtain ⟨h1, h2⟩ := Fields.denote_cons_inj (by rwa [Fields.keys_bind]) hk h
    rw [Fields.all, Tree.denote_bind_leaf t ht h1, Fields.denote_bind_leaf rest hrest h2]
    rfl

end

end Denote

end UmbraDB.Lib.Trees
