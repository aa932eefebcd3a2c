import UmbraDB.Lib.Trees

/-! # Trees with sorted fields

A tree whose objects have distinct keys, all in order, is determined by what it denotes. So sorting
gives a normal form of trees up to the order of fields.

* `Tree.eq_of_denote` : sorted trees with the same value are equal.
* `Tree.sortKeys_eq_iff` : trees have the same sorted form if and only if they have the same value. -/

namespace UmbraDB.Lib.Trees

universe u

variable {K L : Type u} {le : K → K → Bool}

mutual

/-- The keys of every object are in order. -/
def Tree.Sorted (le : K → K → Bool) : Tree K L → Prop
  | .leaf _ => True
  | .array items => items.Sorted le
  | .object fields => fields.Sorted le

def Items.Sorted (le : K → K → Bool) : Items K L → Prop
  | .nil => True
  | .cons t rest => t.Sorted le ∧ rest.Sorted le

def Fields.Sorted (le : K → K → Bool) : Fields K L → Prop
  | .nil => True
  | .cons k t rest => (∀ k' ∈ rest.keys, le k k' = true) ∧ t.Sorted le ∧ rest.Sorted le

end

/-- The order of the keys. -/
structure KeyOrder (le : K → K → Bool) : Prop where
  total : ∀ a b, le a b = true ∨ le b a = true
  trans : ∀ a b c, le a b = true → le b c = true → le a c = true
  antisymm : ∀ a b, le a b = true → le b a = true → a = b

theorem Fields.insert_sorted (ho : KeyOrder le) {k : K} {t : Tree K L} (ht : t.Sorted le) :
    ∀ {fields : Fields K L}, fields.Sorted le → (fields.insert le k t).Sorted le
  | .nil, _ => ⟨fun _ h => absurd h List.not_mem_nil, ht, trivial⟩
  | .cons k' t' rest, h => by
    obtain ⟨hle, ht', hrest⟩ := h
    rw [Fields.insert]
    split_ifs with hk
    · refine ⟨fun k'' hk'' => ?_, ht, hle, ht', hrest⟩
      rcases List.mem_cons.mp hk'' with rfl | hk''
      · exact hk
      · exact ho.trans _ _ _ hk (hle k'' hk'')
    · refine ⟨fun k'' hk'' => ?_, ht', Fields.insert_sorted ho ht hrest⟩
      rcases (mem_keys_insert rest).mp hk'' with rfl | hk''
      · exact (ho.total k' k'').resolve_right hk
      · exact hle k'' hk''

mutual

theorem Tree.sortKeys_sorted (ho : KeyOrder le) : ∀ t : Tree K L, (t.sortKeys le).Sorted le
  | .leaf _ => trivial
  | .array items => Items.sortKeys_sorted ho items
  | .object fields => Fields.sortKeys_sorted ho fields

theorem Items.sortKeys_sorted (ho : KeyOrder le) : ∀ items : Items K L, (items.sortKeys le).Sorted le
  | .nil => trivial
  | .cons t rest => ⟨Tree.sortKeys_sorted ho t, Items.sortKeys_sorted ho rest⟩

theorem Fields.sortKeys_sorted (ho : KeyOrder le) : ∀ fields : Fields K L, (fields.sortKeys le).Sorted le
  | .nil => trivial
  | .cons _ t rest =>
    Fields.insert_sorted ho (Tree.sortKeys_sorted ho t) (Fields.sortKeys_sorted ho rest)

end

variable [DecidableEq K]

/-- The keys of an object are those that it has a value for. -/
theorem Fields.mem_keys_iff : ∀ {fields : Fields K L} {k : K},
    k ∈ fields.keys ↔ fields.denote k ≠ none
  | .nil, k => by simp [Fields.keys, Fields.denote]
  | .cons k' t rest, k => by
    rw [Fields.keys, List.mem_cons, Fields.denote]
    split_ifs with hk
    · exact iff_of_true (Or.inl hk) (Option.some_ne_none _)
    · rw [or_iff_right hk, Fields.mem_keys_iff]

/-- The first keys of two objects with the same keys. -/
theorem Fields.first_key_eq {k k' : K} {t t' : Tree K L} {rest rest' : Fields K L}
    (ho : KeyOrder le) (hs : (Fields.cons k t rest).Sorted le) (hs' : (Fields.cons k' t' rest').Sorted le)
    (hd : (Fields.cons k t rest).denote = (Fields.cons k' t' rest').denote) : k = k' := by
  have hmem : k ∈ (Fields.cons k' t' rest').keys := by
    rw [Fields.mem_keys_iff, ← hd, ← Fields.mem_keys_iff]
    exact List.mem_cons_self
  have hmem' : k' ∈ (Fields.cons k t rest).keys := by
    rw [Fields.mem_keys_iff, hd, ← Fields.mem_keys_iff]
    exact List.mem_cons_self
  rcases List.mem_cons.mp hmem with rfl | h
  · rfl
  · rcases List.mem_cons.mp hmem' with rfl | h'
    · rfl
    · exact ho.antisymm _ _ (hs.1 k' h') (hs'.1 k h)

mutual

/-- **A sorted tree is determined by its value.** -/
theorem Tree.eq_of_denote (ho : KeyOrder le) : ∀ {t t' : Tree K L}, t.Sorted le → t'.Sorted le →
    t.distinct = true → t'.distinct = true → t.denote = t'.denote → t = t'
  | .leaf l, .leaf l', _, _, _, _, h => by
    rw [Tree.denote, Tree.denote, Value.leaf.injEq] at h
    rw [h]
  | .array items, .array items', hs, hs', hd, hd', h => by
    rw [Tree.denote, Tree.denote, Value.array.injEq] at h
    rw [Items.eq_of_denote ho hs hs' hd hd' h]
  | .object fields, .object fields', hs, hs', hd, hd', h => by
    rw [Tree.denote, Tree.denote, Value.object.injEq] at h
    rw [Fields.eq_of_denote ho hs hs' hd hd' h]
  | .leaf _, .array _, _, _, _, _, h => by cases h
  | .leaf _, .object _, _, _, _, _, h => by cases h
  | .array _, .leaf _, _, _, _, _, h => by cases h
  | .array _, .object _, _, _, _, _, h => by cases h
  | .object _, .leaf _, _, _, _, _, h => by cases h
  | .object _, .array _, _, _, _, _, h => by cases h

theorem Items.eq_of_denote (ho : KeyOrder le) : ∀ {items items' : Items K L}, items.Sorted le → items'.Sorted le →
    items.distinct = true → items'.distinct = true → items.denote = items'.denote → items = items'
  | .nil, .nil, _, _, _, _, _ => rfl
  | .cons t rest, .cons t' rest', hs, hs', hd, hd', h => by
    rw [Items.distinct, Bool.and_eq_true] at hd hd'
    rw [Items.denote, Items.denote, List.cons.injEq] at h
    rw [Tree.eq_of_denote ho hs.1 hs'.1 hd.1 hd'.1 h.1,
      Items.eq_of_denote ho hs.2 hs'.2 hd.2 hd'.2 h.2]
  | .nil, .cons _ _, _, _, _, _, h => by cases h
  | .cons _ _, .nil, _, _, _, _, h => by cases h

theorem Fields.eq_of_denote (ho : KeyOrder le) : ∀ {fields fields' : Fields K L}, fields.Sorted le →
    fields'.Sorted le → fields.distinct = true → fields'.distinct = true →
      fields.denote = fields'.denote → fields = fields'
  | .nil, .nil, _, _, _, _, _ => rfl
  | .cons k t rest, .cons k' t' rest', hs, hs', hd, hd', h => by
    obtain rfl := Fields.first_key_eq ho hs hs' h
    obtain ⟨hk, ht, hrest⟩ := Fields.distinct_cons.mp hd
    obtain ⟨hk', ht', hrest'⟩ := Fields.distinct_cons.mp hd'
    obtain ⟨h1, h2⟩ := Fields.denote_cons_inj hk hk' h
    rw [Tree.eq_of_denote ho hs.2.1 hs'.2.1 ht ht' h1,
      Fields.eq_of_denote ho hs.2.2 hs'.2.2 hrest hrest' h2]
  | .nil, .cons k _ _, _, _, _, _, h => by
    have hk := congrFun h k
    rw [Fields.denote, Fields.denote, if_pos rfl] at hk
    cases hk
  | .cons k _ _, .nil, _, _, _, _, h => by
    have hk := congrFun h k
    rw [Fields.denote, Fields.denote, if_pos rfl] at hk
    cases hk

end

/-- **Sorting gives a normal form.** -/
theorem Tree.sortKeys_eq_iff (ho : KeyOrder le) {t t' : Tree K L} (hd : t.distinct = true) (hd' : t'.distinct = true) :
    t.sortKeys le = t'.sortKeys le ↔ t.denote = t'.denote := by
  constructor
  · intro h
    rw [← Tree.denote_sortKeys t hd, h, Tree.denote_sortKeys t' hd']
  · intro h
    refine Tree.eq_of_denote ho (Tree.sortKeys_sorted ho t)
      (Tree.sortKeys_sorted ho t') (Tree.distinct_sortKeys t hd)
      (Tree.distinct_sortKeys t' hd') ?_
    rw [Tree.denote_sortKeys t hd, Tree.denote_sortKeys t' hd', h]

end UmbraDB.Lib.Trees
