import UmbraDB.Js.Text

/-! # Transaction history: entries, the merge and the pending-clear rule

An entry has a hash, identifiers and a lifecycle status, which the storage reads, and a content `C`
of sections and facts, which only the merge function looks into. What `writeRows` decides in the
process, before its upsert and before its `DELETE`, is here; its statements are in the modules that
run them. -/

namespace UmbraDB.Ths.Entry

open UmbraDB.Js.Text

/-- `EntryLifecycleStatus`. -/
inductive LifecycleStatus
  | pending
  | finalized
  | rejected
  deriving DecidableEq

/-- `TransactionHistoryEntry`. -/
structure HistoryEntry (C : Type) where
  hash : JsString
  identifiers : List JsString
  lifecycle : LifecycleStatus
  content : C
  deriving DecidableEq

/-- `MergeEntriesFn`; `none` when it throws. -/
abbrev MergeEntriesFn (C : Type) := HistoryEntry C → HistoryEntry C → Option (HistoryEntry C)

/-- How a `got*` call fails before its upsert. -/
inductive ThsError
  /-- `TransactionHistoryEntrySchema` rejects the incoming entry. -/
  | validation
  | mergeThrew
  /-- `merge function must not change the entry's hash`. -/
  | mergeChangedHash (merged incoming : JsString)
  /-- `TransactionHistoryEntrySchema` rejects the merge result. -/
  | mergeInvalid
  /-- `rowToEntry` on a stored row. -/
  | serialization
  /-- An error of the server. -/
  | postgres
  deriving DecidableEq

variable {C : Type}

/-- The entry to persist: the incoming one on the first write of its hash, else the merge result,
which must keep the hash and pass the schema. -/
def mergeResult (valid : HistoryEntry C → Bool) (mergeFn : MergeEntriesFn C)
    (existing : Option (HistoryEntry C)) (entry : HistoryEntry C) :
    Except ThsError (HistoryEntry C) :=
  match existing with
  | none => .ok entry
  | some old =>
    match mergeFn old entry with
    | none => .error .mergeThrew
    | some merged =>
      if merged.hash ≠ entry.hash then .error (.mergeChangedHash merged.hash entry.hash)
      else if !valid merged then .error .mergeInvalid
      else .ok merged

/-- The condition of the pending-clear step. -/
def clearsPending (result : HistoryEntry C) : Bool :=
  (result.lifecycle == .finalized || result.lifecycle == .rejected) &&
    decide (0 < result.identifiers.length)

/-- The `WHERE` of the pending-clear `DELETE`, the wallet apart, on the columns of a row. The
containment `<@` is by elements. -/
def superseded (hash : JsString) (identifiers : List JsString) (txHash : JsString)
    (lifecycle : LifecycleStatus) (rowIdentifiers : List JsString) : Bool :=
  txHash != hash && lifecycle == .pending && decide (0 < rowIdentifiers.length) &&
    rowIdentifiers.all fun id => identifiers.contains id

/-- The persisted entry has the hash of the incoming one. -/
theorem mergeResult_hash {valid : HistoryEntry C → Bool} {mergeFn : MergeEntriesFn C}
    {existing : Option (HistoryEntry C)} {entry result : HistoryEntry C}
    (h : mergeResult valid mergeFn existing entry = .ok result) : result.hash = entry.hash := by
  unfold mergeResult at h
  split at h
  · cases h
    rfl
  · split at h
    · cases h
    · next merged _ =>
      by_cases hne : merged.hash ≠ entry.hash
      · rw [if_pos hne] at h
        cases h
      · rw [if_neg hne] at h
        split at h
        · cases h
        · cases h
          exact not_not.mp hne

end UmbraDB.Ths.Entry
