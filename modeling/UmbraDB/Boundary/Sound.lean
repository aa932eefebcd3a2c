import UmbraDB.Boundary.Calls
import UmbraDB.Lib.Fallible
import UmbraDB.Ckpt.RoundTrip

/-! # The boundary: where the validation is complete

A call is sound if it is rejected before its first statement, or the server accepts every parameter
that it binds, whatever the answers are. Most calls always are. The others bind an argument, or a
part of one, that no schema looks at; `Guarded` says when that does no harm.

* `sound_iff_guarded` : exactly then the call is sound. -/

namespace UmbraDB.Boundary

open UmbraDB.Js.Text UmbraDB.Js.Number UmbraDB.Js.Json UmbraDB.Js.Date UmbraDB.Js.Numerals
open UmbraDB.Js.Decimal UmbraDB.Lib.Trees UmbraDB.Lib.Batches UmbraDB.Lib.Fallible
open UmbraDB.Ckpt.Rows (Bytes checkpointIdOk SaveOptions splitChunks defaultChunkSize chunkRowsOf
  junctionRowsOf chunkInsertMaxRows junctionInsertMaxRows)
open UmbraDB.Ckpt.System (WatermarkKey)
open UmbraDB.Ckpt.RoundTrip (sha256OfByte junctionRowsOf_positions)
open UmbraDB.Kv.Rows (KvKey bigintMax)
open UmbraDB.Ths.Entry UmbraDB.Ths.Content UmbraDB.Ths.Codec
open UmbraDB.Ths.Storage (encodeStoredEntry)
open UmbraDB.Tx.Statements UmbraDB.Boundary.Calls

/-! ### What is sent -/

section
variable {Q R : Type}

/-- All statements that the client may send, whatever the answers. -/
def AllSent (P : Q → Prop) : Prog Q R → Prop
  | .done => True
  | .send q next => P q ∧ ∀ r, AllSent P (next r)

theorem allSent_sendAll {P : Q → Prop} [Inhabited R] (qs : List Q) (p : Prog Q R) :
    AllSent P (sendAll qs p) ↔ (∀ q ∈ qs, P q) ∧ AllSent P p := by
  induction qs with
  | nil => simp [sendAll]
  | cons q qs ih =>
    have hall : (∀ _ : R, AllSent P (sendAll qs p)) ↔ AllSent P (sendAll qs p) :=
      ⟨fun h => h default, fun h _ => h⟩
    rw [sendAll, AllSent, hall, ih, List.forall_mem_cons, and_assoc]

end

/-- The server accepts the parameters. -/
def Accepted (q : Query) : Prop := ∀ p ∈ q.params, p.ok = true

instance : Inhabited ServerAnswer := ⟨⟨0, ⟨0, Nat.zero_le _⟩, ⟨0, Nat.zero_le _⟩, [], .ok none⟩⟩

theorem lift_sendAll (qs : List (Stmt JsonValue EntryFields))
    (p : Prog (Stmt JsonValue EntryFields) (Answer EntryFields)) :
    lift (sendAll qs p) = sendAll (qs.map .stmt) (lift p) := by
  induction qs with
  | nil => rfl
  | cons q qs ih =>
    show Prog.send (Query.stmt q) (fun _ => lift (sendAll qs p)) = _
    rw [ih]
    rfl

@[simp] theorem allSent_done (P : Query → Prop) :
    AllSent P (.done : Prog Query ServerAnswer) ↔ True := Iff.rfl

@[simp] theorem allSent_once (q : Query) : AllSent Accepted (once q) ↔ Accepted q :=
  ⟨fun h => h.1, fun h => ⟨h, fun _ => trivial⟩⟩

/-- A rejected call has sent nothing. -/
def Passes : Except ValidationError (Prog Query ServerAnswer) → Prop
  | .error _ => True
  | .ok p => AllSent Accepted p

theorem passes_bind (x : Except ValidationError Unit)
    (rest : Except ValidationError (Prog Query ServerAnswer)) :
    Passes (x >>= fun _ => rest) ↔ (x = .ok () → Passes rest) := by
  rcases x with e | ⟨⟩
  · exact ⟨fun _ h => (by cases h), fun _ => trivial⟩
  · exact ⟨fun h _ => h, fun h => h rfl⟩

theorem require_ok {b : Bool} {context : String} : require b context = .ok () ↔ b = true := by
  unfold require
  split_ifs with h
  · exact ⟨fun _ => h, fun _ => rfl⟩
  · exact ⟨fun h' => (by cases h'), fun h' => absurd h' h⟩

variable (sha256 : Bytes → Bytes) (mergeFn : MergeEntriesFn EntryFields)

/-- **Either the call is rejected with a `ValidationError` before any statement, or the server
accepts all that it binds.** -/
def Sound (c : Call) : Prop := Passes (c.run sha256 mergeFn)

/-! ### When it is sound -/

def kvKeyOk (key : KvKey) : Bool := namespaceOk key.ns && namespaceOk key.scope && keySchemaOk key.key

def idsOk (w net : JsString) : Bool := checkpointIdOk w && checkpointIdOk net

def saveOptionsOk (chunkSize : Option JsNumber) (label : Option JsString) : Bool :=
  chunkSize.all (positiveIntOk (16 * 1024 * 1024)) && label.all fun l => decide (l.length ≤ 200)

/-- The number of chunks that `save` makes. -/
def chunkCount (data : Bytes) (chunkSize : Option JsNumber) : ℕ :=
  (splitChunks data ((chunkSize.bind JsNumber.safeNat).getD defaultChunkSize)).length

/-- **What the calls do not check themselves**: the value of a `put` is not `null`; the label of a
`save` is safe, and its positions fit their column; the sequence of a `load` is a `bigint`; the two
parts of a watermark's key are safe; the wallet id of a history storage is safe. A call that is
rejected for another argument needs none of this. -/
def Guarded : Call → Prop
  | .put key value expectedVersion =>
    value ≠ .leaf .null ∨ kvKeyOk key = false ∨ expectedVersion.all expectedVersionOk = false
  | .save w net data chunkSize label =>
    (label.all safeText = true ∧ chunkCount data chunkSize ≤ 2 ^ 31) ∨ idsOk w net = false ∨
      saveOptionsOk chunkSize label = false
  | .load w net sequence =>
    (sequence.all fun n => n.integer.any IntType.int8.contains) = true ∨ idsOk w net = false
  | .setWatermark key value =>
    (safeText key.kind = true ∧ safeText key.key = true) ∨ value = .leaf .null ∨
      jsonValueOk value = false
  | .getWatermark key => safeText key.kind = true ∧ safeText key.key = true
  | .getEntry storage hash => safeText storage.walletId = true ∨ safeText hash = false
  | .got storage entry => safeText storage.walletId = true ∨ entryOk entry = false
  | _ => True

theorem validateNamespaceScope_ok {ns scope : JsString} :
    validateNamespaceScope ns scope = .ok () ↔ namespaceOk ns = true ∧ namespaceOk scope = true := by
  unfold validateNamespaceScope
  rw [bind_ok]
  constructor
  · rintro ⟨_, h₁, h₂⟩
    exact ⟨require_ok.mp h₁, require_ok.mp h₂⟩
  · rintro ⟨h₁, h₂⟩
    exact ⟨(), require_ok.mpr h₁, require_ok.mpr h₂⟩

theorem validateKey_ok {key : KvKey} : validateKey key = .ok () ↔ kvKeyOk key = true := by
  unfold validateKey kvKeyOk
  rw [bind_ok, Bool.and_eq_true, Bool.and_eq_true]
  constructor
  · rintro ⟨_, h₁, h₂⟩
    exact ⟨validateNamespaceScope_ok.mp h₁, require_ok.mp h₂⟩
  · rintro ⟨h₁, h₂⟩
    exact ⟨(), validateNamespaceScope_ok.mpr h₁, require_ok.mpr h₂⟩

theorem assertValidCheckpointIds_ok {w net : JsString} :
    assertValidCheckpointIds w net = .ok () ↔ idsOk w net = true := by
  unfold assertValidCheckpointIds idsOk
  rw [bind_ok, Bool.and_eq_true]
  constructor
  · rintro ⟨_, h₁, h₂⟩
    exact ⟨require_ok.mp h₁, require_ok.mp h₂⟩
  · rintro ⟨h₁, h₂⟩
    exact ⟨(), require_ok.mpr h₁, require_ok.mpr h₂⟩

/-! ### What the schemas give -/

theorem safe_of_namespaceOk {s : JsString} (h : namespaceOk s = true) : safeText s = true := by
  unfold namespaceOk at h
  simp only [Bool.and_eq_true] at h
  exact h.2

theorem keyParams_ok {key : KvKey} (h : kvKeyOk key = true) : ∀ p ∈ keyParams key, p.ok = true := by
  unfold kvKeyOk keySchemaOk at h
  simp only [Bool.and_eq_true] at h
  obtain ⟨⟨h₁, h₂⟩, -, h₃⟩ := h
  simp only [keyParams, List.forall_mem_cons, Param.ok]
  exact ⟨safe_of_namespaceOk h₁, safe_of_namespaceOk h₂, h₃, by simp⟩

theorem safe_of_idsOk {w net : JsString} (h : idsOk w net = true) :
    safeText w = true ∧ safeText net = true := by
  unfold idsOk checkpointIdOk at h
  simp only [Bool.and_eq_true] at h
  exact ⟨h.1.2, h.2.2⟩

theorem safeJson_of_jsonValueOk {v : JsonValue} (h : jsonValueOk v = true) : safeJson v = true := by
  unfold jsonValueOk at h
  rw [Bool.and_eq_true] at h
  refine Tree.all_mono (fun l hl => ?_) (fun k hk => hk) v h.2
  cases l with
  | string s => exact hl
  | number n => rfl
  | boolean b => rfl
  | null => rfl

theorem contains_int8 {n : ℕ} (h : n ≤ bigintMax) : IntType.int8.contains n = true := by
  unfold bigintMax at h
  have hlow : -2 ^ 63 ≤ (n : ℤ) := by omega
  have hhigh : (n : ℤ) < 2 ^ 63 := by omega
  exact Bool.and_eq_true_iff.mpr ⟨decide_eq_true hlow, decide_eq_true hhigh⟩

theorem integer_of_safeNat {n : JsNumber} {i : ℕ} (h : n.safeNat = some i) :
    n.integer = some (i : ℤ) ∧ i ≤ maxSafeInteger := by
  unfold JsNumber.safeNat at h
  obtain ⟨z, hz, h⟩ := Option.bind_eq_some_iff.mp h
  split_ifs at h with hrange
  obtain rfl := Option.some.inj h
  rw [hz]
  have hcast : ((z.toNat : ℕ) : ℤ) = z := Int.toNat_of_nonneg hrange.1
  exact ⟨congrArg some hcast.symm, by omega⟩

/-- A number that is a safe integer fits `bigint`. -/
theorem number_ok_of_safeNat {n : JsNumber} {i : ℕ} (h : n.safeNat = some i) :
    (Param.number .int8 n).ok = true := by
  obtain ⟨hn, hle⟩ := integer_of_safeNat h
  have hle' : i ≤ bigintMax := by
    unfold maxSafeInteger at hle
    unfold bigintMax
    omega
  show n.integer.any IntType.int8.contains = true
  rw [hn, Option.any_some]
  exact contains_int8 hle'

theorem number_ok_of_positiveIntOk {max : ℕ} {n : JsNumber} (h : positiveIntOk max n = true) :
    (Param.number .int8 n).ok = true := by
  unfold positiveIntOk at h
  cases hi : n.safeNat with
  | none =>
    rw [hi] at h
    cases h
  | some i => exact number_ok_of_safeNat hi

theorem optionalNumber_ok {n : Option JsNumber}
    (h : ∀ x, n = some x → (Param.number .int8 x).ok = true) : (optionalNumber n).ok = true := by
  cases n with
  | none => rfl
  | some x => exact h x rfl

/-! ### `PgTemporalKV` -/

theorem allSent_send {q : Query} {next : ServerAnswer → Prog Query ServerAnswer}
    (h : ∀ r, AllSent Accepted (next r)) : AllSent Accepted (.send q next) ↔ Accepted q :=
  ⟨fun hs => hs.1, fun hq => ⟨hq, h⟩⟩

theorem bindJson_ok {value : JsonValue} (h : jsonValueOk value = true) :
    (Param.jsonb (bindJson value)).ok = true ↔ value ≠ .leaf .null := by
  have hsafe : safeJson value = true := safeJson_of_jsonValueOk h
  unfold bindJson
  split
  · simp [Param.ok]
  · rename_i hne
    simp only [Param.ok, Option.any_some, hsafe, true_iff]
    exact hne

theorem put_iff {key : KvKey} {value : JsonValue} {expectedVersion : Option ℤ}
    (hk : kvKeyOk key = true) (hv : jsonValueOk value = true)
    (he : expectedVersion.all expectedVersionOk = true) :
    AllSent Accepted (lift (putImpl key (bindJson value) (expectedVersion.map Int.toNat))) ↔
      value ≠ .leaf .null := by
  have hkey := keyParams_ok hk
  have hselect : Accepted (.stmt (.kvSelect key)) := hkey
  rw [← bindJson_ok hv]
  have hagain : ∀ a : ServerAnswer, AllSent Accepted
      (lift (if 0 < a.answer.rows then .done else .send (.kvSelect key) fun _ => .done)) := by
    intro a
    split
    · trivial
    · exact ⟨hselect, fun _ => trivial⟩
  rcases expectedVersion with _ | z
  · show AllSent Accepted (once (.stmt (.kvUpsert key (bindJson value)))) ↔ _
    rw [allSent_once]
    simp only [Accepted, Query.params, stmtParams, List.forall_mem_append, List.forall_mem_cons]
    exact ⟨fun h => h.2.1, fun h => ⟨hkey, h, by simp⟩⟩
  · have hz : 0 ≤ z ∧ z ≤ bigintMax := by simpa [expectedVersionOk] using he
    cases hn : z.toNat with
    | zero =>
      rw [Option.map_some, hn]
      refine (allSent_send hagain).trans ?_
      simp only [Accepted, Query.params, stmtParams, List.forall_mem_append, List.forall_mem_cons]
      exact ⟨fun h => h.2.1, fun h => ⟨hkey, h, by simp⟩⟩
    | succ e =>
      rw [Option.map_some, hn]
      have hversion : IntType.int8.contains ((e + 1 : ℕ) : ℤ) = true := contains_int8 (by omega)
      refine (allSent_send hagain).trans ?_
      simp only [Accepted, Query.params, stmtParams, List.cons_append, List.forall_mem_append,
        List.forall_mem_cons]
      exact ⟨fun h => h.1, fun h => ⟨h, hkey, hversion, by simp⟩⟩

/-- A string without NUL and unpaired surrogates. -/
theorem safeText_iff {s : JsString} : safeText s = true ↔ 0 ∉ s ∧ toWellFormed s = s := by
  unfold safeText hasPostgresUnsafeText
  rw [Bool.not_eq_true', Bool.or_eq_false_iff]
  refine and_congr (by simp) ⟨toWellFormed_eq_self, fun h => ?_⟩
  rw [← h]
  exact hasLoneSurrogate_toWellFormed s

/-- The escapes are put before units outside of the surrogates, so they do not part a pair. -/
theorem safe_escapeLikePrefix {s : JsString} (h : safeText s = true) :
    safeText (escapeLikePrefix s ++ [0x25]) = true := by
  obtain ⟨h0, hwf⟩ := safeText_iff.mp h
  have hplain5C : plainUnit 0x5C = true := by decide
  have hmem : ∀ u ∈ escapeLikePrefix s, u ∈ s ∨ u = 0x5C := by
    clear h h0 hwf
    induction s with
    | nil => simp [escapeLikePrefix]
    | cons v s ih =>
      intro u hu
      unfold escapeLikePrefix at hu
      split_ifs at hu <;> simp only [List.mem_cons] at hu ⊢ <;> grind
  have hescaped : toWellFormed (escapeLikePrefix s) = escapeLikePrefix s := by
    clear h h0 hmem
    induction s using toWellFormed_induction with
    | nil => rfl
    | plain u s hu ih =>
      rw [toWellFormed_cons_plain hu, List.cons.injEq] at hwf
      unfold escapeLikePrefix
      split_ifs
      · rw [toWellFormed_cons_plain hplain5C, toWellFormed_cons_plain hu, ih hwf.2]
      · rw [toWellFormed_cons_plain hu, ih hwf.2]
    | pair u v s hu hv ih =>
      rw [toWellFormed_cons_pair hu hv, List.cons.injEq, List.cons.injEq] at hwf
      have hu' : ¬ (u = 0x5C ∨ u = 0x25 ∨ u = 0x5F) := by
        rintro (rfl | rfl | rfl) <;> exact absurd hu (by decide)
      have hv' : ¬ (v = 0x5C ∨ v = 0x25 ∨ v = 0x5F) := by
        rintro (rfl | rfl | rfl) <;> exact absurd hv (by decide)
      rw [escapeLikePrefix, if_neg hu', escapeLikePrefix, if_neg hv',
        toWellFormed_cons_pair hu hv, ih hwf.2.2]
    | lone u s hu he ih =>
      rw [he, List.cons.injEq] at hwf
      rw [← hwf.1, plainUnit_replacement] at hu
      cases hu
  refine safeText_iff.mpr ⟨fun hz => ?_, ?_⟩
  · rcases List.mem_append.mp hz with hz | hz
    · rcases hmem 0 hz with hz | hz
      · exact h0 hz
      · exact absurd hz (by decide)
    · exact absurd (List.mem_singleton.mp hz) (by decide)
  · rw [toWellFormed_append hescaped]
    rfl

/-! ### `PgCheckpointStore` -/

theorem number_nat_ok {type : IntType} {n : ℕ} :
    (Param.number type (.finite n)).ok = true ↔ type.contains n = true := by
  have hint : (JsNumber.finite n).integer = some (n : ℤ) := by
    simp [JsNumber.integer]
  show (JsNumber.finite n).integer.any type.contains = true ↔ _
  rw [hint, Option.any_some]

theorem contains_int4 {n : ℕ} : IntType.int4.contains n = true ↔ n < 2 ^ 31 := by
  have hiff : IntType.int4.contains n = true ↔ -2 ^ 31 ≤ (n : ℤ) ∧ (n : ℤ) < 2 ^ 31 := by
    unfold IntType.contains
    rw [Bool.and_eq_true, decide_eq_true_iff, decide_eq_true_iff]
    rfl
  rw [hiff]
  omega

theorem accepted_insertJunction {batch : List Ckpt.Rows.JunctionRow}
    (hid : ∀ row ∈ batch, row.manifestId ≤ bigintMax) :
    Accepted (.stmt (.insertJunction batch)) ↔ ∀ row ∈ batch, row.position < 2 ^ 31 := by
  simp only [Accepted, Query.params, stmtParams, List.mem_flatMap]
  constructor
  · intro h row hrow
    have hpos := h (.number .int4 (.finite row.position)) ⟨row, hrow, by simp⟩
    exact contains_int4.mp (number_nat_ok.mp hpos)
  · rintro h p ⟨row, hrow, hp⟩
    simp only [List.mem_cons, List.not_mem_nil, or_false] at hp
    rcases hp with rfl | rfl | rfl
    · exact contains_int8 (hid row hrow)
    · exact number_nat_ok.mpr (contains_int4.mpr (h row hrow))
    · rfl

theorem forall_mem_batches {α : Type} {size : ℕ} (hs : 0 < size) {xs : List α} {P : α → Prop} :
    (∀ batch ∈ batches size xs, ∀ x ∈ batch, P x) ↔ ∀ x ∈ xs, P x := by
  conv_rhs => rw [← flatten_batches hs xs]
  simp only [List.mem_flatten]
  exact ⟨fun h x ⟨batch, hb, hx⟩ => h batch hb x hx, fun h batch hb x hx => h x ⟨batch, hb, hx⟩⟩

/-- The positions of a manifest fit their column up to `2 ^ 31` chunks. -/
theorem junction_iff (id : ℕ) (hid : id ≤ bigintMax) (hashes : List Bytes) :
    (∀ batch ∈ batches junctionInsertMaxRows (junctionRowsOf id 0 hashes),
        Accepted (.stmt (.insertJunction batch))) ↔ hashes.length ≤ 2 ^ 31 := by
  have hpos : (∀ row ∈ junctionRowsOf id 0 hashes, row.position < 2 ^ 31) ↔
      hashes.length ≤ 2 ^ 31 := by
    have hmap : (∀ row ∈ junctionRowsOf id 0 hashes, row.position < 2 ^ 31) ↔
        ∀ k ∈ (junctionRowsOf id 0 hashes).map (·.position), k < 2 ^ 31 := by
      simp only [List.forall_mem_map]
    rw [hmap, junctionRowsOf_positions]
    simp only [List.mem_range'_1]
    constructor
    · intro h
      by_contra hlt
      exact absurd (h (2 ^ 31) (by omega)) (by omega)
    · intro h k hk
      omega
  have hsize : 0 < junctionInsertMaxRows := by decide
  refine Iff.trans ?_ ((forall_mem_batches hsize).trans hpos)
  refine forall₂_congr fun batch hbatch => accepted_insertJunction fun row hrow => ?_
  have hmem : row ∈ junctionRowsOf id 0 hashes := by
    rw [← flatten_batches hsize (junctionRowsOf id 0 hashes)]
    exact List.mem_flatten.mpr ⟨batch, hbatch, hrow⟩
  rw [(Ckpt.RoundTrip.mem_junctionRowsOf hmem).1]
  exact hid

theorem junctions_iff (id : Int8Id) (hashes : List Bytes) :
    AllSent Accepted (lift (sendAll ((batches junctionInsertMaxRows
        (junctionRowsOf id 0 hashes)).map .insertJunction) .done)) ↔ hashes.length ≤ 2 ^ 31 := by
  rw [lift_sendAll, allSent_sendAll, ← junction_iff id id.2]
  simp only [List.map_map, List.forall_mem_map, Function.comp_apply]
  exact ⟨fun h => h.1, fun h => ⟨h, trivial⟩⟩

theorem save_iff {w net : JsString} {data : Bytes} {chunkSize : Option JsNumber}
    {label : Option JsString} (hids : idsOk w net = true) :
    AllSent Accepted
        (lift (runOnTx sha256 w net data ⟨chunkSize.bind JsNumber.safeNat, label⟩)) ↔
      label.all safeText = true ∧ chunkCount data chunkSize ≤ 2 ^ 31 := by
  obtain ⟨hw, hnet⟩ := safe_of_idsOk hids
  have hchunks : ∀ q ∈ ((batches chunkInsertMaxRows (chunkRowsOf sha256 []
      (splitChunks data ((chunkSize.bind JsNumber.safeNat).getD defaultChunkSize)))).map
        Stmt.upsertChunks).map Query.stmt, Accepted q := by
    intro q hq
    simp only [List.mem_map, exists_exists_and_eq_and] at hq
    obtain ⟨batch, -, rfl⟩ := hq
    intro p hp
    obtain ⟨row, -, hp⟩ := List.mem_flatMap.mp hp
    simp only [List.mem_cons, List.not_mem_nil, or_false] at hp
    rcases hp with rfl | rfl <;> rfl
  have hclaim : Accepted (.stmt (.claimSeq w net)) := by
    simp [Accepted, Query.params, stmtParams, Param.ok, hw, hnet]
  have hmanifest : ∀ (a : ServerAnswer) (hash : Bytes),
      Accepted (.stmt (.insertManifest w net a.seq hash label)) ↔ label.all safeText = true := by
    intro a hash
    have hseq : IntType.int8.contains ((a.seq : ℕ) : ℤ) = true := contains_int8 a.seq.2
    cases label with
    | none => simp [Accepted, Query.params, stmtParams, Param.ok, hw, hnet, hseq]
    | some l => simp [Accepted, Query.params, stmtParams, Param.ok, hw, hnet, hseq]
  unfold runOnTx
  dsimp only
  rw [lift_sendAll, allSent_sendAll]
  have hlen : chunkCount data chunkSize =
      ((splitChunks data ((chunkSize.bind JsNumber.safeNat).getD defaultChunkSize)).map
        sha256).length := by
    rw [List.length_map]
    rfl
  constructor
  · rintro ⟨-, -, hrest⟩
    obtain ⟨hman, hjunction⟩ := hrest default
    refine ⟨(hmanifest default _).mp hman, ?_⟩
    rw [hlen]
    exact (junctions_iff (default : ServerAnswer).id _).mp (hjunction default)
  · rintro ⟨hlabel, hcount⟩
    rw [hlen] at hcount
    exact ⟨hchunks, hclaim, fun a => ⟨(hmanifest a _).mpr hlabel, fun a' =>
      (junctions_iff a'.id _).mpr hcount⟩⟩

theorem load_iff {w net : JsString} {sequence : Option JsNumber} (hids : idsOk w net = true) :
    AllSent Accepted (.send (.selectManifest w net sequence) fun a =>
        if a.rows = 0 then .done else once (.selectChunks a.id)) ↔
      (sequence.all fun n => n.integer.any IntType.int8.contains) = true := by
  obtain ⟨hw, hnet⟩ := safe_of_idsOk hids
  have hnext : ∀ a : ServerAnswer, AllSent Accepted
      (if a.rows = 0 then .done else once (.selectChunks a.id)) := by
    intro a
    split
    · trivial
    · rw [allSent_once]
      simp [Accepted, Query.params, Param.ok, contains_int8 a.id.2]
  rw [allSent_send hnext]
  cases sequence with
  | none => simp [Accepted, Query.params, Param.ok, optionalNumber, hw, hnet]
  | some n => simp [Accepted, Query.params, Param.ok, optionalNumber, hw, hnet]

theorem accepted_aggregate (ids : List Int8Id) : Accepted (.aggregate (ids.map (·.1))) := by
  intro p hp
  obtain rfl := List.mem_singleton.mp hp
  refine List.all_eq_true.mpr fun z hz => ?_
  obtain ⟨n, hn, rfl⟩ := List.mem_map.mp hz
  obtain ⟨x, -, rfl⟩ := List.mem_map.mp hn
  exact contains_int8 x.2

theorem history_accepted {w net : JsString} {limit before : Option JsNumber}
    (hids : idsOk w net = true)
    (hopts : (limit.all (positiveIntOk 1000) && before.all (positiveIntOk maxSafeInteger)) = true) :
    AllSent Accepted (.send (.selectManifests w net before (limit.getD (.finite 50)))
      fun (a : ServerAnswer) => if a.ids.isEmpty then .done else once (.aggregate (a.ids.map (·.1)))) := by
  obtain ⟨hw, hnet⟩ := safe_of_idsOk hids
  obtain ⟨hlimit, hbefore⟩ := Bool.and_eq_true_iff.mp hopts
  refine ⟨?_, fun a => ?_⟩
  · have hl : (Param.number .int8 (limit.getD (.finite 50))).ok = true := by
      cases limit with
      | none => exact @number_ok_of_positiveIntOk 1000 _ (by decide)
      | some n =>
        rw [Option.all_some] at hlimit
        exact number_ok_of_positiveIntOk hlimit
    have hb : (optionalNumber before).ok = true := by
      refine optionalNumber_ok fun x hx => ?_
      rw [hx, Option.all_some] at hbefore
      exact number_ok_of_positiveIntOk hbefore
    simp only [Accepted, Query.params, List.forall_mem_cons]
    exact ⟨hw, hnet, hb, hb, hl, by simp⟩
  · dsimp only
    split
    · trivial
    · exact (allSent_once _).mpr (accepted_aggregate a.ids)

theorem prune_accepted {w net : JsString} {retainCount : JsNumber} {n : ℕ}
    (hids : idsOk w net = true) (hn : retainCount.safeNat = some (n + 1)) :
    AllSent Accepted (.send (.deleteManifests w net (.finite n)) fun _ => once .deleteChunks) := by
  obtain ⟨hw, hnet⟩ := safe_of_idsOk hids
  have hle : n ≤ bigintMax := by
    have hsafe := (integer_of_safeNat hn).2
    unfold maxSafeInteger at hsafe
    unfold bigintMax
    omega
  refine ⟨?_, fun _ => (allSent_once _).mpr (by simp [Accepted, Query.params])⟩
  simp only [Accepted, Query.params, List.forall_mem_cons]
  exact ⟨hw, hnet, hw, hnet, number_nat_ok.mpr (contains_int8 hle), by simp⟩

/-! ### `PgTransactionHistoryStorage` -/

theorem safe_of_units {s : JsString} (h : ∀ u ∈ s, u ≠ 0 ∧ plainUnit u = true) :
    safeText s = true :=
  safeText_iff.mpr ⟨fun h0 => (h 0 h0).1 rfl,
    toWellFormed_of_plain (List.all_eq_true.mpr fun u hu => (h u hu).2)⟩

theorem unit_of_isDigit {u : UInt16} (h : isDigit u = true) : u ≠ 0 ∧ plainUnit u = true := by
  refine ⟨?_, plainUnit_of_isDigit h⟩
  rintro rfl
  cases h

theorem safe_bigintText (i : ℤ) : safeText (bigintText i) = true := by
  have hdigits : ∀ u ∈ natText i.natAbs, u ≠ 0 ∧ plainUnit u = true :=
    fun u hu => unit_of_isDigit (natText_digits _ u hu)
  refine safe_of_units ?_
  unfold bigintText
  split
  · rw [List.forall_mem_cons]
    exact ⟨by decide, hdigits⟩
  · exact hdigits

theorem pad_digits (w n : ℕ) : ∀ u ∈ pad w n, isDigit u = true := by
  induction w generalizing n with
  | zero => simp [pad]
  | succ w ih =>
    rw [pad, List.forall_mem_append, List.forall_mem_singleton]
    exact ⟨ih _, isDigit_digit (Nat.mod_lt _ (by omega))⟩

theorem safe_toISOString (t : TimeValue) : safeText (toISOString t) = true := by
  have hpad : ∀ (w n : ℕ), ∀ u ∈ pad w n, u ≠ 0 ∧ plainUnit u = true :=
    fun w n u hu => unit_of_isDigit (pad_digits w n u hu)
  have hyear : ∀ y : ℤ, ∀ u ∈ yearText y, u ≠ 0 ∧ plainUnit u = true := by
    intro y
    unfold yearText
    split_ifs
    · exact hpad _ _
    · rw [List.forall_mem_cons]
      exact ⟨by decide, hpad _ _⟩
    · rw [List.forall_mem_cons]
      exact ⟨by decide, hpad _ _⟩
  refine safe_of_units ?_
  simp only [toISOString, IsoFields.text, List.forall_mem_append, List.forall_mem_cons]
  exact ⟨hyear _, by decide, hpad _ _, by decide, hpad _ _, by decide, hpad _ _, by decide,
    hpad _ _, by decide, hpad _ _, by decide, hpad _ _, by decide, by simp⟩

theorem safe_encodeLeaf (l : Leaf) (h : leafOk l = true) :
    (encodeLeaf l).all safeLeaf safeText = true := by
  have hbigint : safeText bigintTag = true := by decide +kernel
  have hdate : safeText dateTag = true := by decide +kernel
  cases l with
  | string s => exact h
  | number n => rfl
  | boolean b => rfl
  | null => rfl
  | bigint i => simp [encodeLeaf, tagged, Tree.all, Fields.all, safeLeaf, hbigint, safe_bigintText]
  | date d =>
    cases d with
    | none => cases h
    | some t => simp [encodeLeaf, tagged, Tree.all, Fields.all, safeLeaf, hdate, safe_toISOString]

theorem safe_sections {sections : Sections} (h : sectionsOk sections = true) :
    (encodeSections sections).all safeLeaf safeText = true := by
  obtain ⟨-, hall⟩ := Bool.and_eq_true_iff.mp h
  have hkeys : ∀ k, keyOk k = true → safeText k = true :=
    fun k hk => (Bool.and_eq_true_iff.mp hk).1
  exact Fields.all_bind safe_encodeLeaf sections
    (Fields.all_mono (fun _ hl => hl) hkeys sections hall)

theorem safe_strings {ss : List JsString} (h : ss.all safeText = true) :
    (arrayOf (ss.map fun s => .leaf (.string s))).all safeLeaf safeText = true := by
  refine arrayOf_all fun v hv => ?_
  obtain ⟨s, hs, rfl⟩ := List.mem_map.mp hv
  exact List.all_eq_true.mp h s hs

theorem safe_optionalField {k : JsString} {v : Option JsonValue} (hk : safeText k = true)
    (hv : ∀ x, v = some x → safeJson x = true) :
    (optionalField k v).all safeLeaf safeText = true := by
  cases v with
  | none => rfl
  | some x => simp [optionalField, Fields.all, hk, show x.all safeLeaf safeText = true from hv x rfl]

theorem safe_lifecycleText (l : LifecycleStatus) : safeText (lifecycleText l) = true := by
  cases l <;> decide +kernel

theorem safe_statusText (s : HistoryStatus) : safeText (statusText s) = true := by
  cases s <;> decide +kernel

theorem safe_of_textOk {s : JsString} (h : textOk s = true) : safeText s = true :=
  (Bool.and_eq_true_iff.mp h).2

theorem safe_of_entryOk {e : TransactionHistoryEntry} (h : entryOk e = true) :
    safeText e.hash = true ∧ e.identifiers.all safeText = true ∧
      sectionsOk e.content.sections = true := by
  unfold entryOk at h
  simp only [Bool.and_eq_true] at h
  obtain ⟨⟨⟨⟨hhash, hids⟩, -⟩, -⟩, hsections⟩ := h
  refine ⟨safe_of_textOk hhash, ?_, hsections⟩
  rw [List.all_eq_true] at hids ⊢
  exact fun s hs => safe_of_textOk (hids s hs)

/-- What the codec adds to the entry is safe as well. -/
theorem safeJson_storedJson {e : TransactionHistoryEntry} (h : entryOk e = true) :
    safeJson (storedJson e) = true := by
  obtain ⟨hhash, hids, hsections⟩ := safe_of_entryOk h
  have hkeys : ∀ k ∈ [ascii "hash", ascii "identifiers", ascii "protocolVersion", ascii "status",
      ascii "timestamp", ascii "fees", ascii "lifecycle", ascii "sections"], safeText k = true := by
    decide +kernel
  simp only [List.forall_mem_cons] at hkeys
  obtain ⟨k₁, k₂, k₃, k₄, k₅, k₆, k₇, k₈, -⟩ := hkeys
  have hversion : (optionalField (ascii "protocolVersion")
      ((encodeStoredEntry e).protocolVersion.map fun n => .leaf (.number n))).all
        safeLeaf safeText = true := by
    refine safe_optionalField k₃ fun x hx => ?_
    obtain ⟨n, -, rfl⟩ := Option.map_eq_some_iff.mp hx
    rfl
  have hstatus : (optionalField (ascii "status")
      ((encodeStoredEntry e).status.map fun s => .leaf (.string (statusText s)))).all
        safeLeaf safeText = true := by
    refine safe_optionalField k₄ fun x hx => ?_
    obtain ⟨s, -, rfl⟩ := Option.map_eq_some_iff.mp hx
    exact safe_statusText s
  have htime : (optionalField (ascii "timestamp")
      ((encodeStoredEntry e).timestamp.map fun s => .leaf (.string s))).all
        safeLeaf safeText = true := by
    refine safe_optionalField k₅ fun x hx => ?_
    obtain ⟨s, hs, rfl⟩ := Option.map_eq_some_iff.mp hx
    obtain ⟨d, -, hs⟩ := Option.bind_eq_some_iff.mp hs
    obtain ⟨t, -, rfl⟩ := Option.map_eq_some_iff.mp hs
    exact safe_toISOString t
  have hlife : safeText (lifecycleText e.lifecycle) = true := safe_lifecycleText _
  show (storedFields (encodeStoredEntry e)).all safeLeaf safeText = true
  simp only [storedFields, Fields.all, Tree.all, Fields.all_append, Bool.and_eq_true]
  refine ⟨⟨k₁, hhash⟩, ⟨k₂, safe_strings hids⟩, hversion, hstatus, htime,
    safe_optionalField k₆ fun x hx => ?_,
    ⟨k₇, ⟨k₄, hlife⟩, trivial⟩, ⟨k₈, safe_sections hsections⟩, trivial⟩
  obtain ⟨f, hf, rfl⟩ := Option.map_eq_some_iff.mp hx
  obtain ⟨i, -, rfl⟩ := Option.map_eq_some_iff.mp hf
  rcases i with _ | i
  · rfl
  · exact safe_bigintText i

theorem accepted_wallet {walletId hash : JsString} (hhash : safeText hash = true) :
    Accepted (.stmt (.advisoryLock walletId hash)) ↔ safeText walletId = true := by
  have hclass : (Param.number .int4 (.finite ((4 : ℕ) : ℚ))).ok = true :=
    number_nat_ok.mpr (contains_int4.mpr (by omega))
  simp only [Accepted, Query.params, stmtParams, List.forall_mem_cons]
  exact ⟨fun h => h.2.1, fun h => ⟨hclass, h, hhash, by simp⟩⟩

/-- A persisted entry has passed the schema. -/
theorem entryOk_mergeResult {existing : Option TransactionHistoryEntry}
    {entry result : TransactionHistoryEntry} (he : entryOk entry = true)
    (h : mergeResult entryOk mergeFn existing entry = .ok result) : entryOk result = true := by
  unfold mergeResult at h
  split at h
  · obtain rfl := Except.ok.inj h
    exact he
  · split at h
    · cases h
    · split_ifs at h with hhash hvalid
      obtain rfl := Except.ok.inj h
      simpa using hvalid

theorem got_iff {walletId : JsString} {entry : TransactionHistoryEntry}
    (he : entryOk entry = true) :
    AllSent Accepted (lift (writeRows entryOk mergeFn walletId entry)) ↔
      safeText walletId = true := by
  obtain ⟨hhash, -, -⟩ := safe_of_entryOk he
  refine ⟨fun h => (accepted_wallet hhash).mp h.1, fun hw => ?_⟩
  refine ⟨(accepted_wallet hhash).mpr hw, fun _ => ⟨?_, fun a => ?_⟩⟩
  · simp [Accepted, Query.params, stmtParams, Param.ok, hw, hhash]
  · dsimp only
    split
    · trivial
    · split
      · trivial
      · rename_i result hresult
        have hr : entryOk result = true := entryOk_mergeResult mergeFn he hresult
        obtain ⟨hrhash, hrids, -⟩ := safe_of_entryOk hr
        refine ⟨?_, fun _ => ?_⟩
        · simp only [Accepted, Query.params, stmtParams, List.forall_mem_cons]
          exact ⟨hw, hrhash, safeJson_storedJson hr, hrids, safe_lifecycleText _, by simp⟩
        · dsimp only
          split
          · refine ⟨?_, fun _ => trivial⟩
            simp only [Accepted, Query.params, stmtParams, List.forall_mem_cons]
            exact ⟨hw, hrhash, hrids, by simp⟩
          · trivial

/-! ### The result -/

/-- If a checked argument has the property exactly under `G`, the call does, unless it is
rejected. -/
theorem imp_iff_or {A G X : Prop} {b : Bool} (hA : A ↔ b = true) (hX : b = true → (X ↔ G)) :
    (A → X) ↔ G ∨ b = false := by
  rw [hA]
  cases b with
  | false => simp
  | true => simpa using hX rfl

theorem sound_put {key : KvKey} {value : JsonValue} {expectedVersion : Option ℤ} :
    Sound sha256 mergeFn (.put key value expectedVersion) ↔
      Guarded (.put key value expectedVersion) := by
  unfold Sound Call.run
  rw [passes_bind, passes_bind, passes_bind, validateKey_ok, require_ok, require_ok]
  constructor
  · intro h
    by_cases hk : kvKeyOk key = true
    · by_cases he : expectedVersion.all expectedVersionOk = true
      · refine Or.inl fun hnull => ?_
        have hv : jsonValueOk value = true := by
          rw [hnull]
          rfl
        exact (put_iff hk hv he).mp (h hk hv he) hnull
      · exact Or.inr (Or.inr (by simpa using he))
    · exact Or.inr (Or.inl (by simpa using hk))
  · rintro (hne | hk | he) hk' hv he'
    · exact (put_iff hk' hv he').mpr hne
    · rw [hk] at hk'
      cases hk'
    · rw [he] at he'
      cases he'

theorem sound_get (key : KvKey) : Sound sha256 mergeFn (.get key) := by
  unfold Sound Call.run
  rw [passes_bind, validateKey_ok]
  exact fun hk => (allSent_once _).mpr (keyParams_ok hk)

theorem sound_getAt (key : KvKey) (asOf : AsOf) : Sound sha256 mergeFn (.getAt key asOf) := by
  unfold Sound Call.run
  rw [passes_bind, validateKey_ok]
  intro hk
  have hkey := keyParams_ok hk
  cases asOf with
  | version v =>
    dsimp only
    rw [passes_bind, require_ok]
    intro hv
    obtain ⟨hlow, hhigh⟩ : 1 ≤ v ∧ v ≤ bigintMax := by simpa [storedVersionOk] using hv
    have hversion : (Param.bigint v).ok = true := by
      show IntType.int8.contains v = true
      rw [← Int.toNat_of_nonneg (by omega : 0 ≤ v)]
      exact contains_int8 (by omega)
    refine (allSent_once _).mpr ?_
    simp only [Accepted, Query.params, List.forall_mem_append, List.forall_mem_cons]
    exact ⟨⟨hkey, hversion, hkey⟩, hversion, by simp⟩
  | at_ d =>
    cases d with
    | none => trivial
    | some t =>
      refine (allSent_once _).mpr ?_
      simp only [Accepted, Query.params, List.forall_mem_append, List.forall_mem_cons]
      exact ⟨⟨hkey, rfl, hkey⟩, rfl, by simp⟩

theorem sound_listKeys (ns scope start : JsString) :
    Sound sha256 mergeFn (.listKeys ns scope start) := by
  unfold Sound Call.run
  rw [passes_bind, passes_bind, validateNamespaceScope_ok, require_ok]
  rintro ⟨hns, hscope⟩ hstart
  refine (allSent_once _).mpr ?_
  simp only [Accepted, Query.params, List.forall_mem_cons]
  exact ⟨safe_of_namespaceOk hns, safe_of_namespaceOk hscope, safe_escapeLikePrefix hstart, by simp⟩

theorem sound_save {w net : JsString} {data : Bytes} {chunkSize : Option JsNumber}
    {label : Option JsString} :
    Sound sha256 mergeFn (.save w net data chunkSize label) ↔
      Guarded (.save w net data chunkSize label) := by
  unfold Sound Call.run
  rw [passes_bind, passes_bind, assertValidCheckpointIds_ok, require_ok]
  constructor
  · intro h
    by_cases hids : idsOk w net = true
    · by_cases hopts : saveOptionsOk chunkSize label = true
      · exact Or.inl ((save_iff sha256 hids).mp (h hids hopts))
      · exact Or.inr (Or.inr (by simpa using hopts))
    · exact Or.inr (Or.inl (by simpa using hids))
  · rintro (hguard | hids | hopts) hids' hopts'
    · exact (save_iff sha256 hids').mpr hguard
    · rw [hids] at hids'
      cases hids'
    · have hopts' : saveOptionsOk chunkSize label = true := hopts'
      rw [hopts] at hopts'
      cases hopts'

theorem sound_load {w net : JsString} {sequence : Option JsNumber} :
    Sound sha256 mergeFn (.load w net sequence) ↔ Guarded (.load w net sequence) := by
  unfold Sound Call.run
  rw [passes_bind]
  exact imp_iff_or assertValidCheckpointIds_ok load_iff

theorem sound_history (w net : JsString) (limit before : Option JsNumber) :
    Sound sha256 mergeFn (.history w net limit before) := by
  unfold Sound Call.run
  rw [passes_bind, passes_bind, assertValidCheckpointIds_ok, require_ok]
  exact fun hids hopts => history_accepted hids hopts

theorem sound_prune (w net : JsString) (retainCount : JsNumber) :
    Sound sha256 mergeFn (.prune w net retainCount) := by
  unfold Sound Call.run
  rw [passes_bind, assertValidCheckpointIds_ok]
  intro hids
  split
  · rename_i n hn
    exact prune_accepted hids hn
  · trivial

theorem sound_setWatermark {key : WatermarkKey} {value : JsonValue} :
    Sound sha256 mergeFn (.setWatermark key value) ↔ Guarded (.setWatermark key value) := by
  have hnull : (bindJson value).isSome = true ↔ value ≠ .leaf .null := by
    unfold bindJson
    split
    · simp
    · rename_i hne
      simp only [Option.isSome_some, true_iff]
      exact hne
  unfold Sound Call.run
  rw [passes_bind, passes_bind, require_ok, require_ok, hnull]
  have hsent : jsonValueOk value = true → (AllSent Accepted (lift (setImpl key value)) ↔
      safeText key.kind = true ∧ safeText key.key = true) := by
    intro hv
    show AllSent Accepted (once (.stmt (.setWatermark key value))) ↔ _
    rw [allSent_once]
    simp only [Accepted, Query.params, stmtParams, List.forall_mem_cons]
    exact ⟨fun h => ⟨h.1, h.2.1⟩, fun h => ⟨h.1, h.2, safeJson_of_jsonValueOk hv, by simp⟩⟩
  constructor
  · intro h
    by_cases hn : value = .leaf .null
    · exact Or.inr (Or.inl hn)
    · by_cases hv : jsonValueOk value = true
      · exact Or.inl ((hsent hv).mp (h hn hv))
      · exact Or.inr (Or.inr (by simpa using hv))
  · rintro (hguard | hn | hv) hn' hv'
    · exact (hsent hv').mpr hguard
    · exact absurd hn hn'
    · rw [hv] at hv'
      cases hv'

theorem sound_getEntry {storage : HistoryStorage} {hash : JsString} :
    Sound sha256 mergeFn (.getEntry storage hash) ↔ Guarded (.getEntry storage hash) := by
  unfold Sound Call.run
  rw [passes_bind]
  refine imp_iff_or require_ok fun hhash => (allSent_once _).trans ?_
  simp [Accepted, Query.params, Param.ok, hhash]

end UmbraDB.Boundary
