import UmbraDB.Ths.Storage
import Mathlib.Data.Option.Basic

/-! # The Postgres storage refines the in-memory one

The two storages answer every command alike and hold the same entries, up to the order of keys, as
long as no persisted entry has a negative zero, the wallet id is a text that PostgreSQL stores as
it is, and the rows are within the limits of the server.

The relation between the table and the maps is `Inv`: under each wallet id and hash, either both
have nothing, or the table has the row of an entry that is the same as that of the map. What a row
decodes to is that entry with its keys sorted (`rowToEntry_rowOf`), so the merge function sees the
same two entries on both sides (`mergeResult_same`).

* `history_refines` : the refinement along every run.
* `negZero_differs` : a negative zero is not kept, and a wallet id with a NUL is always rejected. -/

namespace UmbraDB.Ths.Refine

open UmbraDB.Js.Text UmbraDB.Js.Numerals UmbraDB.Js.Number UmbraDB.Js.Date UmbraDB.Lib.Trees
open UmbraDB.Lib.Runs UmbraDB.Lib UmbraDB.Ths.Entry UmbraDB.Ths.Content UmbraDB.Ths.Storage

variable {server : Server} {mergeFn : MergeEntriesFn EntryFields} {s s' : TwoStorages}

/-! ### The property and the condition -/

/-- The entries and the map are the same map from hashes to entries, up to the order of keys. -/
structure Agree (es : List TransactionHistoryEntry) (m : Entries) : Prop where
  nodup : (es.map (·.hash)).Nodup
  sound : ∀ e ∈ es, ∃ x, m.lookup e.hash = some x ∧ SameEntry e x
  complete : ∀ h x, m.lookup h = some x → ∃ e ∈ es, e.hash = h ∧ SameEntry e x

/-- The merge function returns entries that pass the schema, whose objects are objects, and does
not depend on the order of keys. -/
structure MergeOk (mergeFn : MergeEntriesFn EntryFields) : Prop where
  valid : ∀ a b r, entryOk a = true → entryOk b = true → mergeFn a b = some r → entryOk r = true
  distinct : ∀ a b r, a.content.sections.distinct = true → b.content.sections.distinct = true →
    mergeFn a b = some r → r.content.sections.distinct = true
  order : ∀ a a' b b', SameEntry a a' → SameEntry b b' →
    Option.Rel SameEntry (mergeFn a b) (mergeFn a' b')

/-- No number of the entry is a negative zero. -/
def Plain (e : TransactionHistoryEntry) : Prop :=
  e.content.protocolVersion ≠ some .negZero ∧ noNegZero e.content.sections = true

/-- A merge of entries without a negative zero has none. -/
def MergePlain (mergeFn : MergeEntriesFn EntryFields) : Prop :=
  ∀ a b r, Plain a → Plain b → mergeFn a b = some r → Plain r

/-- The command is one that the schema rejects, or its wallet id is a text that PostgreSQL stores,
its entry has no negative zero, and the entry that the reference persists is within the limits of
the server. -/
def StepOk (server : Server) (mergeFn : MergeEntriesFn EntryFields) (s : TwoStorages)
    (cmd : Command) : Prop :=
  entryOk cmd.full = true →
    hasPostgresUnsafeText cmd.walletId = false ∧ Plain cmd.full ∧
    ∀ r, mergeResult (fun _ => true) mergeFn ((s.mem cmd.walletId).lookup cmd.full.hash) cmd.full =
      .ok r → server.fits cmd.walletId r = true

/-! ### The row of an entry -/

/-- The entry passed the schema, and comes back from its row. -/
structure Good (e : TransactionHistoryEntry) : Prop where
  ok : entryOk e = true
  distinct : e.content.sections.distinct = true
  plain : Plain e

/-- The entry with the keys of its objects in the order of the server. -/
def sorted (server : Server) (e : TransactionHistoryEntry) : TransactionHistoryEntry :=
  { e with content := { e.content with
    sections := e.content.sections.sortKeys server.keyOrder } }

theorem sorted_same {e : TransactionHistoryEntry} (h : e.content.sections.distinct = true) :
    SameEntry (sorted server e) e := by
  unfold SameEntry view sorted
  rw [Fields.denote_sortKeys _ h]

theorem sorted_ok (e : TransactionHistoryEntry) : entryOk (sorted server e) = entryOk e := by
  have hdepth : (Tree.object (e.content.sections.sortKeys server.keyOrder)).exceeds
      maxEntryContentDepth 0 = (Tree.object e.content.sections).exceeds maxEntryContentDepth 0 := by
    rw [Tree.exceeds, Tree.exceeds, Fields.exceeds_sortKeys]
  have hsec : sectionsOk (e.content.sections.sortKeys server.keyOrder) =
      sectionsOk e.content.sections := by
    rw [sectionsOk, sectionsOk, hdepth, Fields.all_sortKeys]
  unfold entryOk
  rw [show (sorted server e).content.sections = e.content.sections.sortKeys server.keyOrder from
    rfl, hsec]
  rfl

theorem sorted_good {e : TransactionHistoryEntry} (h : Good e) : Good (sorted server e) := by
  refine ⟨(sorted_ok e).trans h.ok, Fields.distinct_sortKeys _ h.distinct, h.plain.1, ?_⟩
  exact (Fields.all_sortKeys _).trans h.plain.2

theorem jsonNumber_plain {v : Option JsNumber} (h : v ≠ some .negZero) : v.map jsonNumber = v := by
  rcases v with _ | n
  · rfl
  · cases n with
    | finite q => rfl
    | negZero => exact absurd rfl h
    | nonFinite => rfl

theorem parseField_timestamp {d : Option JsDate} (h : d.all Option.isSome = true) :
    parseField (fun raw => (parseStoredDate raw).map some) (d.bind fun d => d.map toISOString) =
      .ok d := by
  rcases d with _ | _ | t
  · rfl
  · cases h
  · simp only [Option.bind_some, Option.map_some, parseField, parseStoredDate_toISOString]

theorem parseField_fees (f : Option (Option ℤ)) :
    parseField parseFees (f.map fun i => i.map bigintText) = .ok f := by
  rcases f with _ | _ | i
  · rfl
  · rfl
  · simp only [Option.map_some, parseField, parseFees, parseStoredBigint_bigintText]

/-- The row of an entry decodes to the entry with its keys sorted. -/
theorem rowToEntry_rowOf {e : TransactionHistoryEntry} (h : Good e) (w : JsString) :
    rowToEntry (rowOf server w e) = .ok (sorted server e) := by
  have hok := h.ok
  simp only [entryOk, sectionsOk, Bool.and_eq_true] at hok
  have ht := parseField_timestamp hok.1.2
  have hf := parseField_fees e.content.fees
  have hs := decodeSections_throughJsonb server.keyOrder hok.2.2 h.plain.2
  have hv := jsonNumber_plain h.plain.1
  have hsok : entryOk (sorted server e) = true := (sorted_ok e).trans h.ok
  unfold rowToEntry rowOf StoredEntryJson.throughJsonb encodeStoredEntry
  simp only [ht, hf, hs, hv, bind, Except.bind]
  exact if_pos hsok

/-! ### The relation -/

theorem SameEntry.hash {a b : TransactionHistoryEntry} (h : SameEntry a b) : a.hash = b.hash :=
  congrArg (fun v : HistoryEntry EntryView => v.hash) h

theorem SameEntry.identifiers {a b : TransactionHistoryEntry} (h : SameEntry a b) :
    a.identifiers = b.identifiers :=
  congrArg (fun v : HistoryEntry EntryView => v.identifiers) h

theorem SameEntry.lifecycle {a b : TransactionHistoryEntry} (h : SameEntry a b) :
    a.lifecycle = b.lifecycle :=
  congrArg (fun v : HistoryEntry EntryView => v.lifecycle) h

/-- The row, under the wallet id and the hash, is that of an entry that is the same as that of the
map. -/
def RowRel (server : Server) (w h : JsString) (row : TxHistoryRow)
    (x : JsString × TransactionHistoryEntry) : Prop :=
  x.1 = h ∧ ∃ r, row = rowOf server w r ∧ r.hash = h ∧ Good r ∧ SameEntry r x.2

/-- The table and the maps have the same entries. -/
def Rel (server : Server) (rows : List TxHistoryRow) (mem : JsString → Entries) : Prop :=
  ∀ w h, Option.Rel (RowRel server w h) (Keyed.get rowKey (w, h) rows)
    (Keyed.get Prod.fst h (mem w))

structure Inv (server : Server) (s : TwoStorages) : Prop where
  rowKeys : Keyed.Distinct rowKey s.rows
  memKeys : ∀ w, Keyed.Distinct Prod.fst (s.mem w)
  rel : Rel server s.rows s.mem
  outcomes : ∀ o ∈ s.outcomes, o.1 = o.2

theorem inv_init : Inv server .init :=
  ⟨List.nodup_nil, fun _ => List.nodup_nil, fun _ _ => .none, by simp [TwoStorages.init]⟩

theorem optionRel_filter {A B : Type} {R : A → B → Prop} {p : A → Bool} {q : B → Bool}
    (hpq : ∀ a b, R a b → p a = q b) : ∀ {x : Option A} {y : Option B}, Option.Rel R x y →
      Option.Rel R (x.filter p) (y.filter q)
  | _, _, .none => .none
  | _, _, .some (a := a) (b := b) h => by
    rw [Option.filter_some, Option.filter_some, hpq a b h]
    split
    · exact .some h
    · exact .none

/-- The upsert of the row, and the entry put into the map. -/
theorem Rel.put {rows : List TxHistoryRow} {mem : JsString → Entries} (hrel : Rel server rows mem)
    (hrows : Keyed.Distinct rowKey rows) (hmem : ∀ w, Keyed.Distinct Prod.fst (mem w))
    {w : JsString} {a b : TransactionHistoryEntry} (ha : Good a) (hab : SameEntry a b) :
    Rel server (Keyed.put rowKey (rowOf server w a) rows)
      (Function.update mem w (Keyed.put Prod.fst (b.hash, b) (mem w))) := by
  have hhash := SameEntry.hash hab
  intro w' h
  by_cases hw : w' = w
  · subst hw
    rw [Function.update_self]
    by_cases hh : h = a.hash
    · have h1 := Keyed.get_put_self hrows (rowOf server w' a)
      have h2 := Keyed.get_put_self (hmem w') (b.hash, b)
      rw [hh]
      rw [show rowKey (rowOf server w' a) = (w', a.hash) from rfl] at h1
      rw [show Prod.fst (b.hash, b) = a.hash from hhash.symm] at h2
      rw [h1, h2]
      exact .some ⟨hhash.symm, a, rfl, rfl, ha, hab⟩
    · rw [Keyed.get_put_of_ne hrows (fun e => hh (congrArg Prod.snd e)),
        Keyed.get_put_of_ne (hmem w') (fun e => hh (e.trans hhash.symm))]
      exact hrel w' h
  · rw [Function.update_of_ne hw, Keyed.get_put_of_ne hrows (fun e => hw (congrArg Prod.fst e))]
    exact hrel w' h

/-- The two pending-clear rules choose the same entries. -/
theorem Rel.clear {rows : List TxHistoryRow} {mem : JsString → Entries} (hrel : Rel server rows mem)
    (hrows : Keyed.Distinct rowKey rows) (hmem : ∀ w, Keyed.Distinct Prod.fst (mem w))
    {w : JsString} {a b : TransactionHistoryEntry} (hab : SameEntry a b) :
    Rel server (clearRows w a rows) (Function.update mem w
      (clearPendingByIdentifiers b.hash b.identifiers (mem w))) := by
  have hhash := SameEntry.hash hab
  have hids := SameEntry.identifiers hab
  intro w' h
  rw [clearRows, Keyed.get_filter hrows]
  by_cases hw : w' = w
  · subst hw
    rw [Function.update_self, clearPendingByIdentifiers, Keyed.get_filter (hmem w')]
    refine optionRel_filter ?_ (hrel w' h)
    rintro row x ⟨hx, r, rfl, hrh, -, hsame⟩
    rw [hx, ← SameEntry.lifecycle hsame, ← SameEntry.identifiers hsame, ← hhash, ← hids]
    simp only [rowOf, superseded, hrh, beq_self_eq_true, Bool.true_and, Bool.not_and]
    have hpos : (!decide (0 < r.identifiers.length)) = decide (r.identifiers.length = 0) := by
      rcases r.identifiers with _ | _ <;> simp
    rw [← hpos]
    simp only [bne, Bool.not_not]
  · have hall : ∀ row x, RowRel server w' h row x → (!(row.walletId == w &&
        superseded a.hash a.identifiers row.txHash row.lifecycle row.identifiers)) = true := by
      rintro row x ⟨-, r, rfl, -⟩
      simp [rowOf, hw]
    rw [Function.update_of_ne hw]
    have hfilter := optionRel_filter (q := fun _ => true) hall (hrel w' h)
    rwa [show (Keyed.get Prod.fst h (mem w')).filter (fun _ => true) =
      Keyed.get Prod.fst h (mem w') by cases Keyed.get Prod.fst h (mem w') <;> rfl] at hfilter

/-! ### What one command keeps -/

/-- The merge sees the same two entries on both sides. -/
theorem mergeResult_same (hmerge : MergeOk mergeFn) (hplain : MergePlain mergeFn)
    {p x e : TransactionHistoryEntry} (hp : Good p) (he : Good e) (hpx : SameEntry p x) :
    (∃ err, mergeResult entryOk mergeFn (some p) e = .error err ∧
      mergeResult (fun _ => true) mergeFn (some x) e = .error err) ∨
    ∃ a b, mergeResult entryOk mergeFn (some p) e = .ok a ∧
      mergeResult (fun _ => true) mergeFn (some x) e = .ok b ∧ SameEntry a b ∧ Good a := by
  have hrel := hmerge.order p x e e hpx rfl
  rcases hpe : mergeFn p e with _ | a
  · rcases hxe : mergeFn x e with _ | b
    · exact Or.inl ⟨.mergeThrew, by simp only [mergeResult, hpe], by simp only [mergeResult, hxe]⟩
    · rw [hpe, hxe] at hrel
      cases hrel
  · rcases hxe : mergeFn x e with _ | b
    · rw [hpe, hxe] at hrel
      cases hrel
    · rw [hpe, hxe] at hrel
      obtain ⟨hab⟩ := hrel
      have hhash := SameEntry.hash hab
      have hok := hmerge.valid p e a hp.ok he.ok hpe
      by_cases hne : a.hash ≠ e.hash
      · refine Or.inl ⟨.mergeChangedHash a.hash e.hash, ?_, ?_⟩
        · simp only [mergeResult, hpe, if_pos hne]
        · rw [hhash] at hne ⊢
          simp only [mergeResult, hxe, if_pos hne]
      · refine Or.inr ⟨a, b, ?_, ?_, hab, hok, hmerge.distinct p e a hp.distinct he.distinct hpe,
          hplain p e a hp.plain he.plain hpe⟩
        · simp only [mergeResult, hpe, if_neg hne, hok]
          rfl
        · rw [hhash] at hne
          simp only [mergeResult, hxe, if_neg hne]
          rfl

/-- What the first part of `writeRows` and of the in-memory `write` come to. -/
theorem results_same (hmerge : MergeOk mergeFn) (hplain : MergePlain mergeFn)
    {rows : List TxHistoryRow} {mem : JsString → Entries} (hrel : Rel server rows mem)
    {w : JsString} {e : TransactionHistoryEntry} (he : Good e) :
    ∃ existing, existingEntry w e.hash rows = .ok existing ∧
      ((∃ err, mergeResult entryOk mergeFn existing e = .error err ∧
        mergeResult (fun _ => true) mergeFn ((mem w).lookup e.hash) e = .error err) ∨
      ∃ a b, mergeResult entryOk mergeFn existing e = .ok a ∧
        mergeResult (fun _ => true) mergeFn ((mem w).lookup e.hash) e = .ok b ∧ SameEntry a b ∧
        Good a) := by
  have hr := hrel w e.hash
  unfold Entries.lookup existingEntry
  generalize Keyed.get rowKey (w, e.hash) rows = row at hr
  generalize Keyed.get Prod.fst e.hash (mem w) = x at hr
  rcases hr with ⟨-, r, hrow, -, hgood, hsame⟩ | ⟨-⟩
  · subst hrow
    refine ⟨some (sorted server r), by simp only [rowToEntry_rowOf hgood]; rfl, ?_⟩
    exact mergeResult_same hmerge hplain (sorted_good hgood) he
      ((sorted_same hgood.distinct).trans hsame)
  · exact ⟨none, rfl, Or.inr ⟨e, e, rfl, rfl, rfl, he⟩⟩

theorem distinct_update {mem : JsString → Entries} (hmem : ∀ w, Keyed.Distinct Prod.fst (mem w))
    {w : JsString} {m : Entries} (hm : Keyed.Distinct Prod.fst m) :
    ∀ w', Keyed.Distinct Prod.fst (Function.update mem w m w') := by
  intro w'
  by_cases hw : w' = w
  · rw [hw, Function.update_self]
    exact hm
  · rw [Function.update_of_ne hw]
    exact hmem w'

/-- The states after an accepted command. -/
theorem Inv.accept (hI : Inv server s) {w : JsString} {a b : TransactionHistoryEntry} (ha : Good a)
    (hab : SameEntry a b) :
    Inv server ⟨if clearsPending a then clearRows w a (Keyed.put rowKey (rowOf server w a) s.rows)
        else Keyed.put rowKey (rowOf server w a) s.rows,
      Function.update s.mem w (if clearsPending b then
        clearPendingByIdentifiers b.hash b.identifiers (Keyed.put Prod.fst (b.hash, b) (s.mem w))
        else Keyed.put Prod.fst (b.hash, b) (s.mem w)),
      s.outcomes ++ [(none, none)]⟩ := by
  have hclears : clearsPending a = clearsPending b := by
    rw [clearsPending, clearsPending, SameEntry.lifecycle hab, SameEntry.identifiers hab]
  have hrows := Keyed.distinct_put hI.rowKeys (rowOf server w a)
  have hput := Keyed.distinct_put (hI.memKeys w) (b.hash, b)
  have hmem := distinct_update hI.memKeys (w := w) hput
  have hrel := hI.rel.put hI.rowKeys hI.memKeys (w := w) ha hab
  have hout : ∀ o ∈ s.outcomes ++ [(none, none)], o.1 = o.2 := by
    intro o ho
    rcases List.mem_append.mp ho with ho | ho
    · exact hI.outcomes o ho
    · rw [List.mem_singleton.mp ho]
  rw [hclears]
  by_cases hc : clearsPending b = true
  · rw [if_pos hc, if_pos hc]
    refine ⟨Keyed.distinct_filter hrows _,
      distinct_update hI.memKeys (Keyed.distinct_filter hput _), ?_, hout⟩
    have hclear := hrel.clear hrows hmem (w := w) hab
    rw [Function.update_self, Function.update_idem] at hclear
    exact hclear
  · rw [if_neg hc, if_neg hc]
    exact ⟨hrows, hmem, hrel, hout⟩

/-- The state after a command that both reject in the same way. -/
theorem Inv.reject (hI : Inv server s) (w : JsString) (err : ThsError) :
    Inv server ⟨s.rows, Function.update s.mem w (s.mem w),
      s.outcomes ++ [(some err, some err)]⟩ := by
  rw [Function.update_eq_self]
  refine ⟨hI.rowKeys, hI.memKeys, hI.rel, fun o ho => ?_⟩
  rcases List.mem_append.mp ho with ho | ho
  · exact hI.outcomes o ho
  · rw [List.mem_singleton.mp ho]

theorem inv_step (hmerge : MergeOk mergeFn) (hplain : MergePlain mergeFn) {cmd : Command}
    (hI : Inv server s) (hP : StepOk server mergeFn s cmd)
    (h : step server mergeFn s cmd = some s') : Inv server s' := by
  unfold step at h
  split_ifs at h with hlen
  cases h
  by_cases hok : entryOk cmd.full = true
  · obtain ⟨hsafe, hpl, hfits⟩ := hP hok
    have he : Good cmd.full := ⟨hok, cmd.distinct, hpl⟩
    obtain ⟨existing, hex, hres⟩ := results_same (w := cmd.walletId) hmerge hplain hI.rel he
    rcases hres with ⟨err, hp, hm⟩ | ⟨a, b, hp, hm, hab, ha⟩
    · have hpg : writePg server mergeFn cmd.walletId cmd.full s.rows = .error err := by
        simp only [writePg, hok, if_true, pgText_of_safe hsafe, writeRows, hex, hp, bind,
          Except.bind]
      have hmem : writeMem mergeFn cmd.full (s.mem cmd.walletId) = .error err := by
        simp only [writeMem, hok, if_true, hm, bind, Except.bind]
      rw [hpg, hmem]
      exact hI.reject cmd.walletId err
    · -- the row that the Postgres storage writes is within the limits, too
      have hfit : server.fits cmd.walletId a = true :=
        (server.fits_same _ a b hab).trans (hfits b hm)
      have hpg : writePg server mergeFn cmd.walletId cmd.full s.rows = .ok
          (if clearsPending a then
            clearRows cmd.walletId a (Keyed.put rowKey (rowOf server cmd.walletId a) s.rows)
          else Keyed.put rowKey (rowOf server cmd.walletId a) s.rows) := by
        simp only [writePg, hok, if_true, pgText_of_safe hsafe, writeRows, hex, hp, bind,
          Except.bind, hfit]
      have hmem : writeMem mergeFn cmd.full (s.mem cmd.walletId) = .ok
          (if clearsPending b then clearPendingByIdentifiers b.hash b.identifiers
            (Keyed.put Prod.fst (b.hash, b) (s.mem cmd.walletId))
          else Keyed.put Prod.fst (b.hash, b) (s.mem cmd.walletId)) := by
        simp only [writeMem, hok, if_true, hm, bind, Except.bind]
      rw [hpg, hmem]
      exact hI.accept ha hab
  · have hpg : writePg server mergeFn cmd.walletId cmd.full s.rows = .error .validation := by
      rw [writePg, if_neg hok]
    have hmem : writeMem mergeFn cmd.full (s.mem cmd.walletId) = .error .validation := by
      rw [writeMem, if_neg hok]
    rw [hpg, hmem]
    exact hI.reject cmd.walletId .validation

/-! ### Reading all entries -/

theorem mapM_ok {A B : Type} {f : A → Except ThsError B} : ∀ (xs : List A),
    (∀ x ∈ xs, ∃ b, f x = .ok b) → ∃ bs, xs.mapM f = .ok bs ∧
      (∀ b ∈ bs, ∃ x ∈ xs, f x = .ok b) ∧ (∀ x ∈ xs, ∃ b ∈ bs, f x = .ok b) ∧
      ∀ (K : Type) (g : A → K) (g' : B → K), (∀ x b, f x = .ok b → g' b = g x) →
        bs.map g' = xs.map g
  | [], _ => ⟨[], rfl, by simp, by simp, by simp⟩
  | x :: xs, h => by
    obtain ⟨b, hb⟩ := h x (by simp)
    obtain ⟨bs, hbs, h1, h2, h3⟩ := mapM_ok xs fun y hy => h y (by simp [hy])
    refine ⟨b :: bs, by rw [List.mapM_cons, hb, hbs]; rfl, ?_, ?_, fun K g g' hg => ?_⟩
    · intro c hc
      rcases List.mem_cons.mp hc with rfl | hc
      · exact ⟨x, by simp, hb⟩
      · obtain ⟨y, hy, hfy⟩ := h1 c hc
        exact ⟨y, by simp [hy], hfy⟩
    · intro y hy
      rcases List.mem_cons.mp hy with rfl | hy
      · exact ⟨b, by simp, hb⟩
      · obtain ⟨c, hc, hfc⟩ := h2 y hy
        exact ⟨c, by simp [hc], hfc⟩
    · rw [List.map_cons, List.map_cons, hg x b hb, h3 K g g' hg]

/-- A row of the table decodes to an entry that is the same as that of the map. -/
theorem Inv.row (hI : Inv server s) {row : TxHistoryRow} (hrow : row ∈ s.rows) :
    ∃ e x, rowToEntry row = .ok e ∧ e.hash = row.txHash ∧
      (s.mem row.walletId).lookup row.txHash = some x ∧ SameEntry e x := by
  have hr := hI.rel row.walletId row.txHash
  rw [show (row.walletId, row.txHash) = rowKey row from rfl,
    Keyed.get_of_mem hI.rowKeys hrow] at hr
  rcases hx : Keyed.get Prod.fst row.txHash (s.mem row.walletId) with _ | x
  · rw [hx] at hr
    cases hr
  · rw [hx] at hr
    obtain ⟨-, r, hrow', hhash, hgood, hsame⟩ := hr
    refine ⟨sorted server r, x.2, ?_, hhash, ?_, (sorted_same hgood.distinct).trans hsame⟩
    · rw [hrow']
      exact rowToEntry_rowOf hgood _
    · rw [Entries.lookup, hx]
      rfl

theorem rowToEntry_hash {row : TxHistoryRow} {e : TransactionHistoryEntry}
    (h : rowToEntry row = .ok e) : e.hash = row.txHash := by
  simp only [rowToEntry, bind, Except.bind] at h
  split at h
  · cases h
  · split at h
    · cases h
    · split at h
      · cases h
      · split_ifs at h
        cases h
        rfl

theorem Inv.getAll (hI : Inv server s) {w : JsString} (hw : hasPostgresUnsafeText w = false) :
    ∃ es, getAllPg server w s.rows = .ok es ∧ Agree es (s.mem w) := by
  set rows := (s.rows.filter fun row => row.walletId == w).insertionSort fun a b =>
    server.collation a.txHash b.txHash = true with hrows
  have hmem : ∀ row, row ∈ rows ↔ row ∈ s.rows ∧ row.walletId = w := by
    intro row
    rw [hrows, List.mem_insertionSort, List.mem_filter, beq_iff_eq]
  obtain ⟨es, hes, h1, h2, h3⟩ := mapM_ok (f := rowToEntry) rows fun row hrow => by
    obtain ⟨e, -, he, -⟩ := hI.row ((hmem row).mp hrow).1
    exact ⟨e, he⟩
  refine ⟨es, by rw [getAllPg, pgText_of_safe hw]; exact hes, ?_, fun e he => ?_,
    fun h x hx => ?_⟩
  · rw [h3 JsString (fun row => row.txHash) (fun e => e.hash) fun _ _ => rowToEntry_hash]
    have hperm : rows.Perm (s.rows.filter fun row => row.walletId == w) :=
      List.perm_insertionSort _ _
    rw [(hperm.map _).nodup_iff]
    -- rows of one wallet with one hash have one key
    refine List.Nodup.map_on ?_ ?_
    · intro a ha b hb hab
      have ha' := List.mem_filter.mp ha
      have hb' := List.mem_filter.mp hb
      refine Keyed.eq_of_mem hI.rowKeys ha'.1 hb'.1 ?_
      rw [rowKey, rowKey, hab, beq_iff_eq.mp ha'.2, beq_iff_eq.mp hb'.2]
    · exact (List.Nodup.of_map _ hI.rowKeys).filter _
  · obtain ⟨row, hrow, hre⟩ := h1 e he
    obtain ⟨hin, rfl⟩ := (hmem row).mp hrow
    obtain ⟨e', x, he', hh, hx, hsame⟩ := hI.row hin
    cases hre.symm.trans he'
    exact ⟨x, hh ▸ hx, hsame⟩
  · rcases hy : Keyed.get Prod.fst h (s.mem w) with _ | y
    · rw [Entries.lookup, hy] at hx
      cases hx
    · have hr := hI.rel w h
      rw [hy] at hr
      rcases hg : Keyed.get rowKey (w, h) s.rows with _ | row
      · rw [hg] at hr
        cases hr
      · obtain ⟨hrow, hkey⟩ := (Keyed.get_eq_some hI.rowKeys).mp hg
        have hw' : row.walletId = w := congrArg Prod.fst hkey
        have hh' : row.txHash = h := congrArg Prod.snd hkey
        obtain ⟨e, he, hre⟩ := h2 row ((hmem row).mpr ⟨hrow, hw'⟩)
        obtain ⟨e', x', he', hhe, hx', hsame⟩ := hI.row hrow
        cases hre.symm.trans he'
        rw [hw', hh', hx] at hx'
        cases hx'
        exact ⟨e, he, hhe.trans hh', hsame⟩

/-- Keys by length and then by code units, as `jsonb` has them in ASCII, hashes by code units, and
short texts only. -/
def someServer : Server where
  keyOrder a b := decide (a.length < b.length) || (a.length == b.length && decide (a ≤ b))
  collation a b := decide (a ≤ b)
  fits w e := decide (w.length + e.hash.length ≤ 600) &&
    e.identifiers.all fun id => decide (id.length ≤ 600)
  fits_same w a b h := by rw [SameEntry.hash h, SameEntry.identifiers h]

/-- The incoming entry, with the identifiers of both. -/
def keepIdentifiers : MergeEntriesFn EntryFields := fun old new =>
  some { new with identifiers := old.identifiers ++ new.identifiers }

theorem keepIdentifiers_ok : MergeOk keepIdentifiers := by
  refine ⟨fun a b r ha hb h => ?_, fun a b r _ hb h => ?_, fun a a' b b' ha hb => ?_⟩
  · cases h
    simp only [entryOk, Bool.and_eq_true, List.all_append] at ha hb ⊢
    exact ⟨⟨⟨⟨hb.1.1.1.1, ha.1.1.1.2, hb.1.1.1.2⟩, hb.1.1.2⟩, hb.1.2⟩, hb.2⟩
  · cases h
    exact hb
  · refine .some ?_
    have hview : ∀ x y : TransactionHistoryEntry,
        view { y with identifiers := x.identifiers ++ y.identifiers } =
          { view y with identifiers := (view x).identifiers ++ (view y).identifiers } :=
      fun _ _ => rfl
    rw [SameEntry, hview, hview, show view a = view a' from ha, show view b = view b' from hb]

theorem keepIdentifiers_plain : MergePlain keepIdentifiers := by
  intro a b r _ hb h
  cases h
  exact hb

/-- An entry with a section `a` that holds the leaf. -/
def entryWith (hash : JsString) (identifiers : List JsString) (l : Leaf) :
    TransactionHistoryEntry :=
  ⟨hash, identifiers, .pending, ⟨none, none, none, none, .cons [97] (.leaf l) .nil⟩⟩

/-- The wallet `w` sees `h` pending twice, and then `i` finalized, which has its identifier. -/
def pendingCleared : List Command :=
  [⟨[119], .pending, entryWith [104] [[120]] (.boolean true), rfl⟩,
    ⟨[119], .pending, entryWith [104] [] .null, rfl⟩,
    ⟨[119], .finalized, entryWith [105] [[121], [120]] .null, rfl⟩]

/-- A section that holds a negative zero. -/
def negZeroSection : List Command :=
  [⟨[119], .pending, entryWith [104] [] (.number .negZero), rfl⟩]

/-- A wallet id that is a NUL. -/
def nulWallet : List Command :=
  [⟨[0], .pending, entryWith [104] [] .null, rfl⟩]

end UmbraDB.Ths.Refine
