import UmbraDB.Kv.Rows
import Mathlib.Data.List.Chain
import Mathlib.Data.List.Induction
import Mathlib.Data.List.Pairwise

/-! # Temporal key-value store: the rows of a list of puts

The purpose of the two tables, in terms of the puts alone: `rowsOf ps` is what the tables hold of a
key after the writes `ps`, each given by its value, its time and its transaction, and oldest first.
`addVersion` is one more write. The statements of `Rows` do nothing else to the rows
(`putRow_wrote`), and reading the rows of a list of writes with increasing times is looking a write
up in the list (`getAtImpl_version`, `getAtImpl_at`). -/

namespace UmbraDB.Kv.Replay

open UmbraDB.Kv.Rows

variable {V : Type}

/-- One write: what it stored, when, and in which transaction. -/
structure Write (V : Type) where
  value : V
  writtenAt : ℤ
  xact : ℕ
  deriving DecidableEq

/-- One more version: the row of `kv_current` is replaced, and the one it replaces is filed. -/
def addVersion (rows : KvRows V) (w : Write V) : KvRows V :=
  match rows.current with
  | none => ⟨some ⟨w.value, 1, w.writtenAt, w.xact⟩, rows.history⟩
  | some old =>
    ⟨some ⟨w.value, old.version + 1, w.writtenAt, w.xact⟩,
      rows.history ++ [⟨old.value, old.version, old.updatedAt, w.writtenAt⟩]⟩

/-- The rows after the writes. -/
def rowsOf (ws : List (Write V)) : KvRows V := ws.foldl addVersion .empty

/-- The same tables written out, with `v` the version of the first write: the last write is the row
of `kv_current`, and each one before it is filed under the interval up to the next. -/
def rowsFrom : ℕ → List (Write V) → KvRows V
  | _, [] => .empty
  | v, [w] => ⟨some ⟨w.value, v, w.writtenAt, w.xact⟩, []⟩
  | v, w :: w' :: ws =>
    ⟨(rowsFrom (v + 1) (w' :: ws)).current,
      ⟨w.value, v, w.writtenAt, w'.writtenAt⟩ :: (rowsFrom (v + 1) (w' :: ws)).history⟩

/-- The entries a reader expects to find, with `v` the version of the first write. -/
def entriesFrom : ℕ → List (Write V) → List (VersionedEntry V)
  | _, [] => []
  | v, w :: ws => ⟨w.value, v, w.writtenAt⟩ :: entriesFrom (v + 1) ws

theorem rowsOf_snoc (ws : List (Write V)) (w : Write V) :
    rowsOf (ws ++ [w]) = addVersion (rowsOf ws) w := by
  simp [rowsOf, List.foldl_append]

theorem addVersion_rowsFrom : ∀ (v : ℕ) (ws : List (Write V)) (w : Write V), ws ≠ [] →
    addVersion (rowsFrom v ws) w = rowsFrom v (ws ++ [w])
  | v, [w₀], w, _ => by simp [addVersion, rowsFrom]
  | v, w₀ :: w₁ :: ws, w, _ => by
    have ih := addVersion_rowsFrom (v + 1) (w₁ :: ws) w (by simp)
    simp only [List.cons_append, rowsFrom] at ih ⊢
    rw [← ih]
    unfold addVersion
    simp only
    split
    · simp
    · simp

theorem rowsOf_eq_rowsFrom (ws : List (Write V)) : rowsOf ws = rowsFrom 1 ws := by
  induction ws using List.reverseRecOn with
  | nil => rfl
  | append_singleton ws w ih =>
    rw [rowsOf_snoc, ih]
    rcases ws with _ | ⟨w₀, ws⟩
    · rfl
    · exact addVersion_rowsFrom 1 _ w (by simp)

theorem rowsFrom_current : ∀ (v : ℕ) (ws : List (Write V)),
    (rowsFrom v ws).current =
      ws.getLast?.map fun w => ⟨w.value, v + ws.length - 1, w.writtenAt, w.xact⟩
  | v, [] => rfl
  | v, [w] => by simp [rowsFrom]
  | v, w :: w' :: ws => by
    simp only [rowsFrom]
    rw [rowsFrom_current (v + 1) (w' :: ws), List.getLast?_cons_cons]
    simp only [List.length_cons]
    rw [show v + 1 + (ws.length + 1) - 1 = v + (ws.length + 1 + 1) - 1 by omega]

theorem rowsOf_current (ws : List (Write V)) :
    (rowsOf ws).current = ws.getLast?.map fun w => ⟨w.value, ws.length, w.writtenAt, w.xact⟩ := by
  rw [rowsOf_eq_rowsFrom, rowsFrom_current, Nat.add_sub_cancel_left]

theorem currentVersion_rowsOf (ws : List (Write V)) : currentVersion (rowsOf ws) = ws.length := by
  rw [currentVersion, rowsOf_current]
  rcases List.eq_nil_or_concat ws with rfl | ⟨ws', w, rfl⟩
  · rfl
  · simp

/-! ### The representation -/

/-- **The representation invariant** of the rows of a key: the versions of `kv_history` and of
`kv_current` are `1, …, n`, in this order, and the intervals of `kv_history` are non-empty, each
begins where the one before ends, and the last ends where the row of `kv_current` begins. -/
structure RepInv (rows : KvRows V) : Prop where
  versions : rows.history.map (·.version) ++ (rows.current.map (·.version)).toList =
    List.range' 1 (currentVersion rows)
  nonempty : ∀ h ∈ rows.history, h.validFrom < h.validTo
  contiguous : rows.history.IsChain fun a b => a.validTo = b.validFrom
  last : ∀ h ∈ rows.history.getLast?, rows.current.map (·.updatedAt) = some h.validTo

/-- The times of the writes increase. -/
def Increasing (ws : List (Write V)) : Prop := ws.Pairwise fun a b => a.writtenAt < b.writtenAt

theorem rowsFrom_versions : ∀ (v : ℕ) (ws : List (Write V)),
    (rowsFrom v ws).history.map (·.version) ++ ((rowsFrom v ws).current.map (·.version)).toList =
      List.range' v ws.length
  | v, [] => rfl
  | v, [w] => by simp [rowsFrom]
  | v, w :: w' :: ws => by
    have ih := rowsFrom_versions (v + 1) (w' :: ws)
    rw [List.length_cons, List.range'_succ, ← ih]
    simp [rowsFrom]

theorem rowsFrom_nonempty : ∀ (v : ℕ) (ws : List (Write V)), Increasing ws →
    ∀ h ∈ (rowsFrom v ws).history, h.validFrom < h.validTo
  | v, [], _, h, hh => by simp [rowsFrom, KvRows.empty] at hh
  | v, [w], _, h, hh => by simp [rowsFrom] at hh
  | v, w :: w' :: ws, hs, h, hh => by
    obtain ⟨h1, h2⟩ := List.pairwise_cons.mp hs
    simp only [rowsFrom, List.mem_cons] at hh
    rcases hh with rfl | hh
    · exact h1 w' (by simp)
    · exact rowsFrom_nonempty (v + 1) (w' :: ws) h2 h hh

/-- The first interval starts with the first write. -/
theorem rowsFrom_head (v : ℕ) (w : Write V) (ws : List (Write V)) :
    ∀ h ∈ (rowsFrom v (w :: ws)).history.head?, h.validFrom = w.writtenAt := by
  intro h hh
  rcases ws with _ | ⟨w', ws⟩
  · simp [rowsFrom] at hh
  · simp only [rowsFrom, List.head?_cons, Option.mem_def, Option.some.injEq] at hh
    rw [← hh]

theorem rowsFrom_contiguous : ∀ (v : ℕ) (ws : List (Write V)),
    (rowsFrom v ws).history.IsChain fun a b => a.validTo = b.validFrom
  | v, [] => by simp [rowsFrom, KvRows.empty]
  | v, [w] => by simp [rowsFrom]
  | v, w :: w' :: ws => by
    simp only [rowsFrom]
    refine List.isChain_cons.mpr ⟨fun b hb => ?_, rowsFrom_contiguous (v + 1) (w' :: ws)⟩
    exact (rowsFrom_head (v + 1) w' ws b hb).symm

theorem rowsFrom_last : ∀ (v : ℕ) (ws : List (Write V)),
    ∀ h ∈ (rowsFrom v ws).history.getLast?, (rowsFrom v ws).current.map (·.updatedAt) =
      some h.validTo
  | v, [], h, hh => by simp [rowsFrom, KvRows.empty] at hh
  | v, [w], h, hh => by simp [rowsFrom] at hh
  | v, [w, w'], h, hh => by
    simp only [rowsFrom, List.getLast?_singleton, Option.mem_def, Option.some.injEq] at hh
    subst hh
    simp [rowsFrom]
  | v, w :: w' :: w'' :: ws, h, hh => by
    refine rowsFrom_last (v + 1) (w' :: w'' :: ws) h ?_
    simpa only [rowsFrom, List.getLast?_cons_cons] using hh

/-- The rows of writes with increasing times are well-formed. -/
theorem repInv_rowsOf {ws : List (Write V)} (hs : Increasing ws) : RepInv (rowsOf ws) := by
  refine ⟨?_, ?_, ?_, ?_⟩
  · rw [currentVersion_rowsOf, rowsOf_eq_rowsFrom]
    exact rowsFrom_versions 1 ws
  · rw [rowsOf_eq_rowsFrom]
    exact rowsFrom_nonempty 1 ws hs
  · rw [rowsOf_eq_rowsFrom]
    exact rowsFrom_contiguous 1 ws
  · rw [rowsOf_eq_rowsFrom]
    exact rowsFrom_last 1 ws

/-! ### Reading the rows -/

theorem getAtImpl_cons (h : KvHistory V) (cur : Option (KvCurrent V)) (hs : List (KvHistory V))
    (asOf : AsOf) : getAtImpl ⟨cur, h :: hs⟩ asOf =
      if historyMatches asOf h then some ⟨h.value, h.version, h.validFrom⟩
      else getAtImpl ⟨cur, hs⟩ asOf := by
  unfold getAtImpl getAtRows
  by_cases hm : historyMatches asOf h = true <;> simp [hm]

theorem getAtImpl_version_lt : ∀ (v : ℕ) (ws : List (Write V)) (n : ℕ), n < v →
    getAtImpl (rowsFrom v ws) (.version n) = none
  | v, [], n, _ => by simp [rowsFrom, KvRows.empty, getAtImpl, getAtRows]
  | v, [w], n, hn => by
    have : v ≠ n := by omega
    simp [rowsFrom, getAtImpl, getAtRows, currentMatches, this]
  | v, w :: w' :: ws, n, hn => by
    have : v ≠ n := by omega
    simp only [rowsFrom]
    rw [getAtImpl_cons]
    simpa [historyMatches, this] using getAtImpl_version_lt (v + 1) (w' :: ws) n (by omega)

theorem getAtImpl_version : ∀ (v : ℕ) (ws : List (Write V)) (i : ℕ),
    getAtImpl (rowsFrom v ws) (.version (v + i)) = (entriesFrom v ws)[i]?
  | v, [], i => by simp [rowsFrom, KvRows.empty, getAtImpl, getAtRows, entriesFrom]
  | v, [w], i => by
    rcases i with _ | i
    · simp [rowsFrom, getAtImpl, getAtRows, currentMatches, entriesFrom]
    · simp [rowsFrom, getAtImpl, getAtRows, currentMatches, entriesFrom]
  | v, w :: w' :: ws, i => by
    simp only [rowsFrom]
    rw [getAtImpl_cons]
    rcases i with _ | i
    · simp [historyMatches, entriesFrom]
    · have ih := getAtImpl_version (v + 1) (w' :: ws) i
      rw [show v + 1 + i = v + (i + 1) by omega] at ih
      simpa [historyMatches, entriesFrom] using ih

theorem entriesFrom_getElem? : ∀ (v : ℕ) (ws : List (Write V)) (i : ℕ),
    (entriesFrom v ws)[i]? = (ws[i]?).map fun w => ⟨w.value, v + i, w.writtenAt⟩
  | v, [], i => by simp [entriesFrom]
  | v, w :: ws, 0 => by simp [entriesFrom]
  | v, w :: ws, i + 1 => by
    rw [entriesFrom, List.getElem?_cons_succ, List.getElem?_cons_succ,
      entriesFrom_getElem? (v + 1) ws i, show v + 1 + i = v + (i + 1) by omega]

theorem entriesFrom_append : ∀ (v : ℕ) (ws ws' : List (Write V)),
    entriesFrom v (ws ++ ws') = entriesFrom v ws ++ entriesFrom (v + ws.length) ws'
  | v, [], ws' => by simp [entriesFrom]
  | v, w :: ws, ws' => by
    rw [List.cons_append, entriesFrom, entriesFrom, entriesFrom_append (v + 1) ws ws',
      List.cons_append, List.length_cons, show v + 1 + ws.length = v + (ws.length + 1) by omega]

/-- The entries not written after `t`. -/
def upTo (t : ℤ) (es : List (VersionedEntry V)) : List (VersionedEntry V) :=
  es.filter fun e => decide (e.writtenAt ≤ t)

theorem upTo_cons_pos {t : ℤ} {v : ℕ} {w : Write V} {ws : List (Write V)} (h : w.writtenAt ≤ t) :
    upTo t (entriesFrom v (w :: ws)) =
      ⟨w.value, v, w.writtenAt⟩ :: upTo t (entriesFrom (v + 1) ws) := by
  simp [upTo, entriesFrom, h]

theorem upTo_cons_neg {t : ℤ} {v : ℕ} {w : Write V} {ws : List (Write V)} (h : t < w.writtenAt) :
    upTo t (entriesFrom v (w :: ws)) = upTo t (entriesFrom (v + 1) ws) := by
  simp [upTo, entriesFrom, h]

theorem upTo_eq_nil {t : ℤ} : ∀ {v : ℕ} {ws : List (Write V)}, (∀ w ∈ ws, t < w.writtenAt) →
    upTo t (entriesFrom v ws) = []
  | v, [], _ => rfl
  | v, w :: ws, h => by
    rw [upTo_cons_neg (h w (by simp))]
    exact upTo_eq_nil fun w' hw' => h w' (by simp [hw'])

theorem upTo_append_later {t : ℤ} {v : ℕ} {ws ws' : List (Write V)}
    (h : ∀ w ∈ ws', t < w.writtenAt) :
    upTo t (entriesFrom v (ws ++ ws')) = upTo t (entriesFrom v ws) := by
  rw [entriesFrom_append, upTo, List.filter_append, ← upTo, ← upTo, upTo_eq_nil h, List.append_nil]

/-- The last entry not written after `t` is the write after which all others are later. -/
theorem upTo_getLast? {t : ℤ} {v : ℕ} {w : Write V} {ws ws' : List (Write V)}
    (hw : w.writtenAt ≤ t) (h : ∀ w' ∈ ws', t < w'.writtenAt) :
    (upTo t (entriesFrom v (ws ++ w :: ws'))).getLast? =
      some ⟨w.value, v + ws.length, w.writtenAt⟩ := by
  rw [show ws ++ w :: ws' = (ws ++ [w]) ++ ws' by simp, upTo_append_later h, entriesFrom_append]
  simp [upTo, entriesFrom, hw]

theorem getAtImpl_at (t : ℤ) : ∀ (v : ℕ) (ws : List (Write V)), Increasing ws →
    getAtImpl (rowsFrom v ws) (.at t) = (upTo t (entriesFrom v ws)).getLast?
  | v, [], _ => by simp [rowsFrom, KvRows.empty, getAtImpl, getAtRows, entriesFrom, upTo]
  | v, [w], _ => by
    by_cases h : w.writtenAt ≤ t <;>
      simp [rowsFrom, getAtImpl, getAtRows, currentMatches, entriesFrom, upTo, h]
  | v, w :: w' :: ws, hs => by
    obtain ⟨h1, h2⟩ := List.pairwise_cons.mp hs
    have ih := getAtImpl_at t (v + 1) (w' :: ws) h2
    have hw' := h1 w' (by simp)
    simp only [rowsFrom]
    rw [getAtImpl_cons, ih]
    by_cases hlt : t < w.writtenAt
    · -- before the first write: no row of the key matches
      rw [upTo_cons_neg hlt]
      have : ¬ w.writtenAt ≤ t := by omega
      simp [historyMatches, this]
    · have hle : w.writtenAt ≤ t := by omega
      rw [upTo_cons_pos hle]
      by_cases hlt' : t < w'.writtenAt
      · -- inside the interval of the first row
        have h3 : ∀ x ∈ w' :: ws, t < x.writtenAt := by
          intro x hx
          rcases List.mem_cons.mp hx with rfl | hx
          · exact hlt'
          · have := (List.pairwise_cons.mp h2).1 x hx; omega
        rw [upTo_eq_nil h3]
        simp [historyMatches, hlt', hle]
      · -- from the second write on
        rw [upTo_cons_pos (w := w') (by omega), List.getLast?_cons_cons]
        simp [historyMatches, hlt']

/-! ### What the statements do -/

theorem insertHistory_ok {row : KvHistory V} {history history' : List (KvHistory V)}
    (h : insertHistory row history = .ok history') :
    row.validFrom < row.validTo ∧ history' = history ++ [row] := by
  unfold insertHistory at h
  split_ifs at h with h1 h2 h3
  · exact ⟨h2, by cases h; rfl⟩

theorem historyTrigger_ok {xact : ℕ} {ts : ℤ} {old : KvCurrent V}
    {history history' : List (KvHistory V)}
    (h : historyTrigger xact ts old history = .ok history') :
    old.updatedXact ≠ xact ∧ old.updatedAt < ts ∧
      history' = history ++ [⟨old.value, old.version, old.updatedAt, ts⟩] := by
  unfold historyTrigger at h
  split_ifs at h with h1
  obtain ⟨h2, h3⟩ := insertHistory_ok h
  exact ⟨h1, h2, h3⟩

theorem updateRow_wrote {xact version : ℕ} {clock writtenAt : ℤ} {value : Option V}
    {old : KvCurrent V} {rows rows' : KvRows V} (hc : rows.current = some old)
    (h : updateRow xact clock value old rows.history = .wrote rows' version writtenAt) :
    ∃ v, value = some v ∧ rows' = addVersion rows ⟨v, writtenAt, xact⟩ ∧
      version = old.version + 1 ∧ old.updatedXact ≠ xact ∧ old.updatedAt < writtenAt := by
  unfold updateRow at h
  split_ifs at h with h1
  simp only at h
  split at h
  · cases h
  · next history' ht =>
    obtain ⟨h2, h3, h4⟩ := historyTrigger_ok ht
    split at h
    · cases h
    · next v =>
      cases h
      refine ⟨v, rfl, ?_, rfl, h2, h3⟩
      rw [addVersion, hc, h4]

/-- **A statement that writes adds one version.** It was given a value, it matched the version the
rows had, and if there was a row, that one was written by another transaction and earlier. -/
theorem putRow_wrote {xact version : ℕ} {defaultAt clock writtenAt : ℤ} {expected : Option ℕ}
    {value : Option V} {rows rows' : KvRows V}
    (h : putRow xact defaultAt clock expected value rows = .wrote rows' version writtenAt) :
    ∃ v, value = some v ∧ rows' = addVersion rows ⟨v, writtenAt, xact⟩ ∧
      version = currentVersion rows + 1 ∧ (∀ e, expected = some e → e = currentVersion rows) ∧
      ∀ old, rows.current = some old → old.updatedXact ≠ xact ∧ old.updatedAt < writtenAt := by
  have hinsert : ∀ {v : V}, rows.current = none →
      insertRow xact defaultAt v rows.history = .wrote rows' version writtenAt →
      rows' = addVersion rows ⟨v, writtenAt, xact⟩ ∧ version = currentVersion rows + 1 := by
    intro v hn hi
    cases hi
    simp [addVersion, hn, currentVersion]
  unfold putRow at h
  split at h
  · -- the upsert
    unfold upsertStmt at h
    split at h
    · cases h
    · next v =>
      split at h
      · next hn =>
        obtain ⟨h1, h2⟩ := hinsert hn h
        exact ⟨v, rfl, h1, h2, by simp, by simp [hn]⟩
      · next old hc =>
        obtain ⟨v', hv, h1, h2, h3, h4⟩ := updateRow_wrote hc h
        cases hv
        refine ⟨v, rfl, h1, by simp [currentVersion, hc, h2], by simp, fun old' ho => ?_⟩
        rw [hc] at ho
        cases ho
        exact ⟨h3, h4⟩
  · -- the insert that does nothing on conflict
    unfold insertStmt at h
    split at h
    · cases h
    · next v =>
      split at h
      · next hn =>
        obtain ⟨h1, h2⟩ := hinsert hn h
        refine ⟨v, rfl, h1, h2, fun e he => ?_, by simp [hn]⟩
        cases he
        simp [currentVersion, hn]
      · cases h
  · -- the guarded update
    next e =>
    unfold updateStmt at h
    split at h
    · cases h
    · next old hc =>
      split_ifs at h with hv
      obtain ⟨v, hval, h1, h2, h3, h4⟩ := updateRow_wrote hc h
      refine ⟨v, hval, h1, by simp [currentVersion, hc, h2], fun e' he => ?_, fun old' ho => ?_⟩
      · cases he
        simp [currentVersion, hc, hv]
      · rw [hc] at ho
        cases ho
        exact ⟨h3, h4⟩

/-- A statement that touches no row had an expected version other than the one of the rows. -/
theorem putRow_noRows {xact : ℕ} {defaultAt clock : ℤ} {expected : Option ℕ}
    {value : Option V} {rows : KvRows V} (hpos : ∀ old, rows.current = some old → 0 < old.version)
    (h : putRow xact defaultAt clock expected value rows = .noRows) :
    ∃ e, expected = some e ∧ currentVersion rows ≠ e := by
  have hupd : ∀ old, updateRow xact clock value old rows.history ≠ .noRows := by
    intro old hu
    unfold updateRow at hu
    split_ifs at hu
    simp only at hu
    split at hu
    · cases hu
    · split at hu <;> cases hu
  have hupd' : ∀ v old, updateRow xact clock (some v) old rows.history ≠ .noRows := by
    intro v old hu
    unfold updateRow at hu
    split_ifs at hu
    simp only at hu
    split at hu <;> cases hu
  unfold putRow at h
  split at h
  · unfold upsertStmt at h
    split at h
    · cases h
    · split at h
      · cases h
      · exact absurd h (hupd' _ _)
  · refine ⟨0, rfl, ?_⟩
    unfold insertStmt at h
    split at h
    · cases h
    · split at h
      · cases h
      · next old hc =>
        have := hpos old hc
        simp only [currentVersion, hc, Option.map_some, Option.getD_some]
        omega
  · next e =>
    refine ⟨e + 1, rfl, ?_⟩
    unfold updateStmt at h
    split at h
    · next hn => simp [currentVersion, hn]
    · next old hc =>
      split_ifs at h with hv
      · exact absurd h (hupd old)
      · simpa [currentVersion, hc] using hv

end UmbraDB.Kv.Replay
