import UmbraDB.Archive.Rollover
import UmbraDB.Js.UrlQuery
import UmbraDB.Lease.Contention
import UmbraDB.Lib.Fallible
import UmbraDB.Lib.Keyed

/-! # Connection strings

`createClient` rejects a connection string whose query sets `search_path` or a timeout, as the driver
assigns the parameters of the query over the settings of the client. The check looks for the names in
the string as it is written, while the driver takes them from the URL: percent-decoded, without tabs
and line breaks, and also where no `=` follows. A name that is written in one of these ways passes
the check and overrides the setting.

* `createClient_ok` : what an accepted call gives the driver.
* `keepsSettings_iff` : which connection strings do not override the client. -/

namespace UmbraDB.Client.Dsn

open UmbraDB.Js.Text UmbraDB.Js.Number UmbraDB.Js.UrlQuery UmbraDB.Lease.Contention
open UmbraDB.Lib.Keyed UmbraDB.Lib.Fallible
open UmbraDB.Archive.Rollover (assertValidSchemaName)

/-! ### The client -/

/-- `UmbraDBConnectionOptions`. -/
structure ConnectionOptions where
  connectionString : Option JsString := none
  schema : Option JsString := none
  maxConnections : Option JsNumber := none
  connectTimeout : Option JsNumber := none
  statementTimeoutMs : Option JsNumber := none
  lockTimeoutMs : Option JsNumber := none
  idleInTxTimeoutMs : Option JsNumber := none

inductive ClientError
  | invalidSchemaName (schema : JsString)
  | conflictingParameter (param : JsString)
  | invalidTimeout (name : JsString) (value : Option JsNumber)

inductive SettingValue
  | text (s : JsString)
  | number (n : ℕ)
  deriving DecidableEq

/-- What `createClient` passes to the driver, and the schema that it reports. -/
structure UmbraDBSql where
  connectionString : Option JsString
  max : Option JsNumber
  connectTimeout : Option JsNumber
  connection : List (JsString × SettingValue)
  umbradbSchema : JsString

def defaultSchema : JsString := ascii "umbradb"

/-- `DEFAULT_IDLE_IN_TX_TIMEOUT_MS`. -/
def defaultIdleInTxTimeoutMs : Millis :=
  ⟨120000, defaultStatementTimeoutMs.pos, defaultStatementTimeoutMs.le⟩

/-- The names that a query must not have. -/
def conflictingParams : List JsString :=
  [ascii "search_path", ascii "statement_timeout", ascii "lock_timeout",
    ascii "idle_in_transaction_session_timeout"]

/-- ``new RegExp(`[?&]${param}=`, "i").test(text)``, for a name in lower case. -/
def mentions (param : JsString) : JsString → Bool
  | [] => false
  | u :: rest => (u == 0x3F || u == 0x26) &&
      (rest.take (param.length + 1)).map foldAscii == param ++ [0x3D] || mentions param rest

def assertNoConflictingSearchPath (connectionString : JsString) : Except ClientError Unit :=
  match conflictingParams.find? fun param => mentions param connectionString with
  | some param => .error (.conflictingParameter param)
  | none => .ok ()

/-- The check of one timeout, with its default. -/
def timeoutOption (name : JsString) (default : Millis) (value : Option JsNumber) :
    Except ClientError Millis :=
  match timeoutSetting default value with
  | some timeout => .ok timeout
  | none => .error (.invalidTimeout name value)

/-- The settings that are sent when a session starts. -/
def connectionSettings (schema : JsString) (statementTimeout lockTimeout idleInTxTimeout : Millis) :
    List (JsString × SettingValue) :=
  [(ascii "search_path", .text schema),
    (ascii "statement_timeout", .number statementTimeout.ms),
    (ascii "lock_timeout", .number lockTimeout.ms),
    (ascii "idle_in_transaction_session_timeout", .number idleInTxTimeout.ms)]

def createClient (opts : ConnectionOptions) : Except ClientError UmbraDBSql := do
  let schema := opts.schema.getD defaultSchema
  (assertValidSchemaName schema).mapError fun _ => .invalidSchemaName schema
  opts.connectionString.forM assertNoConflictingSearchPath
  let statementTimeout ← timeoutOption (ascii "statementTimeoutMs") defaultStatementTimeoutMs
    opts.statementTimeoutMs
  let lockTimeout ← timeoutOption (ascii "lockTimeoutMs") defaultLockTimeoutMs opts.lockTimeoutMs
  let idleInTxTimeout ← timeoutOption (ascii "idleInTxTimeoutMs") defaultIdleInTxTimeoutMs
    opts.idleInTxTimeoutMs
  return {
    connectionString := opts.connectionString
    max := opts.maxConnections
    connectTimeout := opts.connectTimeout
    connection := connectionSettings schema statementTimeout lockTimeout idleInTxTimeout
    umbradbSchema := schema }

/-! ### The driver and the server -/

/-- The settings of a session: the parameters of the query are assigned over those of the client. -/
def startupSettings (client : UmbraDBSql) : List (JsString × SettingValue) :=
  match client.connectionString with
  | none => client.connection
  | some connectionString => (searchParams connectionString).foldl
      (fun settings param => put Prod.fst (param.1, .text param.2) settings) client.connection

/-- The server takes the last value of a setting, and ignores the case of names. -/
def effective (name : JsString) (settings : List (JsString × SettingValue)) : Option SettingValue :=
  (settings.filter fun setting => setting.1.map foldAscii == name).getLast?.map Prod.snd

/-- The connection string overrides neither the schema nor a timeout. -/
structure KeepsSettings (client : UmbraDBSql) (connectionString : JsString) : Prop where
  names : ∀ param ∈ searchParams connectionString, param.1.map foldAscii ∉ conflictingParams
  settings : ∀ name ∈ conflictingParams,
    effective name (startupSettings client) = effective name client.connection
  searchPath : effective (ascii "search_path") (startupSettings client) =
    some (.text client.umbradbSchema)

/-- Some parameter has one of the names, and it is written with `%`, with a tab or a line break in
it, or without `=` after it. -/
def Hidden (connectionString : JsString) : Prop :=
  ∃ text after, NameAt (trimInput connectionString) text after ∧
    (∃ name ∈ conflictingParams, Spells (text.filter fun u => !isTabOrNewline u) name) ∧
    (0x25 ∈ text ∨ (∃ u ∈ text, isTabOrNewline u) ∨ after.head? ≠ some 0x3D)

/-! ### The check -/

/-- Where the check finds a name. -/
theorem mentions_iff (param : JsString) : ∀ s : JsString, mentions param s = true ↔
    ∃ before sep text after, s = before ++ sep :: (text ++ 0x3D :: after) ∧
      (sep = 0x3F ∨ sep = 0x26) ∧ text.map foldAscii = param
  | [] => by
    refine iff_of_false Bool.false_ne_true ?_
    rintro ⟨before, sep, text, after, h, -⟩
    exact List.cons_ne_nil _ _ (List.append_eq_nil_iff.mp h.symm).2
  | u :: rest => by
    rw [mentions, Bool.or_eq_true, mentions_iff param rest]
    simp only [Bool.and_eq_true, Bool.or_eq_true, beq_iff_eq]
    constructor
    · rintro (⟨hu, h⟩ | ⟨before, sep, text, after, rfl, hsep, htext⟩)
      · -- the name is here
        obtain ⟨text, tail, htake, htext, htail⟩ := List.map_eq_append_iff.mp h
        obtain ⟨e, _, rfl, he, hnil⟩ := List.map_eq_cons_iff.mp htail
        rw [List.map_eq_nil_iff] at hnil
        subst hnil
        have hsplit := (List.take_append_drop (param.length + 1) rest).symm
        rw [htake, foldAscii_eq_sign.mp he, List.append_assoc] at hsplit
        exact ⟨[], u, text, _, by rw [hsplit]; rfl, hu, htext⟩
      · exact ⟨u :: before, sep, text, after, rfl, hsep, htext⟩
    · rintro ⟨before, sep, text, after, h, hsep, htext⟩
      rcases before with _ | ⟨v, before⟩
      · obtain ⟨rfl, rfl⟩ := List.cons.inj h
        refine Or.inl ⟨hsep, ?_⟩
        rw [← htext, List.length_map, List.append_cons, List.take_left' (by simp), List.map_append]
        rfl
      · obtain ⟨-, rfl⟩ := List.cons.inj h
        exact Or.inr ⟨before, sep, text, after, rfl, hsep, htext⟩

theorem conflictingParams_plain {name : JsString} (h : name ∈ conflictingParams) :
    plainName name ∧ name ≠ [] := by
  have hall : (conflictingParams.all fun name => !name.isEmpty && name.all fun u =>
      decide (u.toNat < 0x80 ∧ u ≠ 0x20 ∧ u ≠ 0x25 ∧ u ≠ 0x2B)) = true := by
    decide +kernel
  have hname := List.all_eq_true.mp hall name h
  rw [Bool.and_eq_true, List.all_eq_true] at hname
  refine ⟨fun u hu => of_decide_eq_true (hname.2 u hu), ?_⟩
  rintro rfl
  exact absurd hname.1 (by decide)

/-- The check finds a name that is not hidden. -/
theorem mentions_of_nameAt {connectionString text after name : JsString}
    (hat : NameAt (trimInput connectionString) text after)
    (hspells : Spells (text.filter fun u => !isTabOrNewline u) name)
    (hpercent : 0x25 ∉ text) (htab : ∀ u ∈ text, ¬isTabOrNewline u)
    (hsign : after.head? = some 0x3D) : mentions name connectionString = true := by
  obtain ⟨a, rfl⟩ := List.head?_eq_some_iff.mp hsign
  obtain ⟨before, sep, hin, -, hsep⟩ := hat.place
  obtain ⟨start, rest, hs⟩ := trimInput_infix connectionString
  rw [List.filter_eq_self.mpr fun u hu => by simpa using htab u hu] at hspells
  refine (mentions_iff name _).mpr ⟨start ++ before, sep, text, a ++ rest, ?_, ?_,
    hspells.map_foldAscii hpercent⟩
  · rw [hin] at hs
    simpa using hs
  · exact hsep.imp And.left And.left

theorem assertNoConflictingSearchPath_ok {connectionString : JsString}
    (h : assertNoConflictingSearchPath connectionString = .ok ()) :
    ∀ name ∈ conflictingParams, ¬mentions name connectionString = true := by
  unfold assertNoConflictingSearchPath at h
  rcases hf : conflictingParams.find? fun param => mentions param connectionString with _ | param
  · exact List.find?_eq_none.mp hf
  · rw [hf] at h
    cases h

/-! ### What an accepted call gives -/

theorem timeoutOption_ok {name : JsString} {default timeout : Millis} {value : Option JsNumber}
    (h : timeoutOption name default value = .ok timeout) :
    timeoutSetting default value = some timeout := by
  unfold timeoutOption at h
  rcases hs : timeoutSetting default value with _ | timeout'
  · rw [hs] at h
    cases h
  · rw [hs] at h
    rw [Except.ok.inj h]

/-- An accepted call: the connection string has passed the check, and the settings are those of the
options. -/
structure Accepted (opts : ConnectionOptions) (client : UmbraDBSql) : Prop where
  schema : client.umbradbSchema = opts.schema.getD defaultSchema
  valid : assertValidSchemaName client.umbradbSchema = .ok ()
  connectionString : client.connectionString = opts.connectionString
  checked : ∀ connectionString, opts.connectionString = some connectionString →
    assertNoConflictingSearchPath connectionString = .ok ()
  connection : ∃ statementTimeout lockTimeout idleInTxTimeout,
    timeoutSetting defaultStatementTimeoutMs opts.statementTimeoutMs = some statementTimeout ∧
    timeoutSetting defaultLockTimeoutMs opts.lockTimeoutMs = some lockTimeout ∧
    timeoutSetting defaultIdleInTxTimeoutMs opts.idleInTxTimeoutMs = some idleInTxTimeout ∧
    client.connection =
      connectionSettings client.umbradbSchema statementTimeout lockTimeout idleInTxTimeout

theorem createClient_ok {opts : ConnectionOptions} {client : UmbraDBSql}
    (h : createClient opts = .ok client) : Accepted opts client := by
  unfold createClient at h
  simp only [bind_ok, mapError_ok] at h
  obtain ⟨_, hvalid, _, hchecked, st, hst, lt, hlt, it, hit, hclient⟩ := h
  obtain rfl := Except.ok.inj hclient
  refine ⟨rfl, hvalid, rfl, ?_,
    st, lt, it, timeoutOption_ok hst, timeoutOption_ok hlt, timeoutOption_ok hit, rfl⟩
  rintro connectionString hs
  rw [hs] at hchecked
  exact hchecked

/-! ### The settings of the session -/

theorem effective_put {name : JsString} {settings : List (JsString × SettingValue)}
    {param : JsString × SettingValue} (h : param.1.map foldAscii ≠ name) :
    effective name (put Prod.fst param settings) = effective name settings := by
  rw [effective, effective, filter_put]
  intro setting hkey
  rw [hkey]
  exact beq_eq_false_iff_ne.mpr h

/-- Parameters with other names leave a setting as it is. -/
theorem effective_foldl {name : JsString} (params : List (JsString × JsString)) :
    ∀ settings : List (JsString × SettingValue),
    (∀ param ∈ params, param.1.map foldAscii ≠ name) →
    effective name (params.foldl
      (fun settings param => put Prod.fst (param.1, .text param.2) settings) settings) =
      effective name settings := by
  induction params with
  | nil => exact fun _ _ => rfl
  | cons param params ih =>
    intro settings h
    rw [List.foldl_cons, ih _ fun param hp => h param (List.mem_cons_of_mem _ hp)]
    exact effective_put (h param List.mem_cons_self)

theorem effective_searchPath (schema : JsString)
    (statementTimeout lockTimeout idleInTxTimeout : Millis) :
    effective (ascii "search_path")
      (connectionSettings schema statementTimeout lockTimeout idleInTxTimeout) =
      some (.text schema) := by
  have hfirst : ((ascii "search_path").map foldAscii == ascii "search_path") = true := by
    decide +kernel
  have hst : ((ascii "statement_timeout").map foldAscii == ascii "search_path") = false := by
    decide +kernel
  have hlt : ((ascii "lock_timeout").map foldAscii == ascii "search_path") = false := by
    decide +kernel
  have hit : ((ascii "idle_in_transaction_session_timeout").map foldAscii ==
      ascii "search_path") = false := by
    decide +kernel
  simp only [effective, connectionSettings, List.filter_cons, hfirst, hst, hlt, hit, ↓reduceIte,
    Bool.false_eq_true]
  rfl

/-- **Which connection strings do not override the client.** -/
theorem keepsSettings_iff {opts : ConnectionOptions} {client : UmbraDBSql}
    {connectionString : JsString} (h : createClient opts = .ok client)
    (hs : opts.connectionString = some connectionString) :
    KeepsSettings client connectionString ↔ ¬Hidden connectionString := by
  have hacc := createClient_ok h
  have hstartup : startupSettings client = (searchParams connectionString).foldl
      (fun settings param => put Prod.fst (param.1, .text param.2) settings) client.connection := by
    rw [startupSettings, hacc.connectionString, hs]
  constructor
  · rintro hkeeps ⟨text, after, hat, ⟨name, hname, hspells⟩, -⟩
    obtain ⟨hplain, hne⟩ := conflictingParams_plain hname
    obtain ⟨param, hparam, hfold⟩ := (exists_param_iff hplain hne).mpr ⟨text, after, hat, hspells⟩
    rw [← hfold] at hname
    exact hkeeps.names param hparam hname
  · intro hnot
    have hnames : ∀ param ∈ searchParams connectionString,
        param.1.map foldAscii ∉ conflictingParams := by
      intro param hparam hname
      obtain ⟨hplain, hne⟩ := conflictingParams_plain hname
      obtain ⟨text, after, hat, hspells⟩ :=
        (exists_param_iff hplain hne).mp ⟨param, hparam, rfl⟩
      -- a name that the driver finds and that is not hidden is found by the check
      refine assertNoConflictingSearchPath_ok (hacc.checked _ hs) _ hname
        (mentions_of_nameAt hat hspells ?_ ?_ ?_)
      · exact fun hp => hnot ⟨text, after, hat, ⟨_, hname, hspells⟩, Or.inl hp⟩
      · exact fun u hu ht =>
          hnot ⟨text, after, hat, ⟨_, hname, hspells⟩, Or.inr (Or.inl ⟨u, hu, ht⟩)⟩
      · by_contra hsign
        exact hnot ⟨text, after, hat, ⟨_, hname, hspells⟩, Or.inr (Or.inr hsign)⟩
    have hsettings : ∀ name ∈ conflictingParams,
        effective name (startupSettings client) = effective name client.connection := by
      intro name hname
      rw [hstartup]
      refine effective_foldl _ _ fun param hparam hfold => ?_
      rw [← hfold] at hname
      exact hnames param hparam hname
    refine ⟨hnames, hsettings, ?_⟩
    obtain ⟨st, lt, it, -, -, -, hconn⟩ := hacc.connection
    rw [hsettings _ List.mem_cons_self, hconn, effective_searchPath]

/-! ### A hidden name -/

/-- A connection string of a client with the schema `tenant_a`. -/
def escapedOptions : ConnectionOptions where
  connectionString := some (ascii "postgres://u@h/db?search%5Fpath=public")
  schema := some (ascii "tenant_a")

theorem keepsSettings_iff_escaped : ∃ client, createClient escapedOptions = .ok client ∧
    (KeepsSettings client (ascii "postgres://u@h/db?search%5Fpath=public") ↔
      ¬Hidden (ascii "postgres://u@h/db?search%5Fpath=public")) :=
  ⟨_, rfl, @keepsSettings_iff escapedOptions _ _ rfl rfl⟩

/-- The session of a client for `tenant_a` works in `public`. -/
theorem searchPath_overridden : ∃ client, createClient escapedOptions = .ok client ∧
    (ascii "search_path", ascii "public") ∈
      searchParams (ascii "postgres://u@h/db?search%5Fpath=public") ∧
    client.umbradbSchema = ascii "tenant_a" ∧
    effective (ascii "search_path") (startupSettings client) = some (.text (ascii "public")) := by
  refine ⟨_, rfl, ?_, ?_, ?_⟩
  · decide +kernel
  · decide +kernel
  · decide +kernel

end UmbraDB.Client.Dsn
