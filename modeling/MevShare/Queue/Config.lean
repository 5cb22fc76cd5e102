import MevShare.Lib.Decimal
import MevShare.Queue.Model
/-!
# The queue's configuration

`ConfigFromEnv` reads six variables of the environment, one after the other, into
the default configuration. It returns an error exactly if one of them is set to
something else than a numeral in the range of its field, whatever the others are;
otherwise every field is what its own variable says, or the default.

The timeout is in milliseconds, may be negative, and is turned into nanoseconds
in 64 bits.
-/
open Lib

namespace MevShare.Queue

/-- The fields of `RedisQueueConfig` that are read by the queue's model, and `WorkerTimeout`, in nanoseconds. -/
structure EnvConfig where
  queue : RedisQueueConfig
  workerTimeout : Int64
deriving DecidableEq, Repr

def defaultQueueConfig (outOfRange : UInt64) : EnvConfig where
  queue := {
    maxRetries := 30
    maxQueuedProcessableItemsLowPrio := 1024
    maxQueuedProcessableItemsHighPrio := 1024 * 2
    maxQueuedUnprocessableItemsLowPrio := 1024 * 3
    maxQueuedUnprocessableItemsHighPrio := 1024 * 4
    outOfRange }
  workerTimeout := 4 * 1000000000

/-- What `os.Getenv` returns; empty for a variable that is not set. -/
abbrev Environment := String → String

/-- One variable. An error is returned with the configuration so far. -/
def fromEnv {α : Type} (env : Environment) (name : String) (parse : List Char → Except NumErr α)
    (set : α → EnvConfig → EnvConfig) (config : EnvConfig) : Except (EnvConfig × NumErr) EnvConfig :=
  if env name = "" then return config
  else
    match parse (env name).toList with
    | .error e => throw (config, e)
    | .ok v => return set v config

/-- One of the four limits. -/
def limitFromEnv (env : Environment) (name : String) (set : UInt64 → RedisQueueConfig → RedisQueueConfig)
    (config : EnvConfig) : Except (EnvConfig × NumErr) EnvConfig :=
  fromEnv env name (parseUint 64) (fun n c => { c with queue := set (UInt64.ofNat n) c.queue }) config

def configFromEnv (outOfRange : UInt64) (env : Environment) : Except (EnvConfig × NumErr) EnvConfig := do
  let config := defaultQueueConfig outOfRange
  let config ← fromEnv env "SIMQUEUE_MAX_RETRIES" (parseUint 16)
    (fun n c => { c with queue := { c.queue with maxRetries := UInt16.ofNat n } }) config
  let config ← limitFromEnv env "SIMQUEUE_MAX_QUEUED_PROCESSABLE_ITEMS_LOW_PRIO"
    (fun n c => { c with maxQueuedProcessableItemsLowPrio := n }) config
  let config ← limitFromEnv env "SIMQUEUE_MAX_QUEUED_PROCESSABLE_ITEMS_HIGH_PRIO"
    (fun n c => { c with maxQueuedProcessableItemsHighPrio := n }) config
  let config ← limitFromEnv env "SIMQUEUE_MAX_QUEUED_UNPROCESSABLE_ITEMS_LOW_PRIO"
    (fun n c => { c with maxQueuedUnprocessableItemsLowPrio := n }) config
  let config ← limitFromEnv env "SIMQUEUE_MAX_QUEUED_UNPROCESSABLE_ITEMS_HIGH_PRIO"
    (fun n c => { c with maxQueuedUnprocessableItemsHighPrio := n }) config
  fromEnv env "SIMQUEUE_WORKER_TIMEOUT_MS" (parseInt 64)
    (fun ms c => { c with workerTimeout := Int64.ofInt ms * 1000000 }) config

/-! ## One variable -/

/-- The value is the default if the variable is empty, and otherwise the number that the variable is a numeral of. -/
def Setting (env : Environment) (name : String) (default value : Nat) : Prop :=
  env name = "" ∧ value = default ∨ env name ≠ "" ∧ Numeral (env name).toList value

/-- The same for the timeout, which may have a sign. The product is taken in 64 bits. -/
def TimeoutSetting (env : Environment) (default timeout : Int64) : Prop :=
  env "SIMQUEUE_WORKER_TIMEOUT_MS" = "" ∧ timeout = default ∨
    env "SIMQUEUE_WORKER_TIMEOUT_MS" ≠ "" ∧ ∃ ms, SignedNumeral (env "SIMQUEUE_WORKER_TIMEOUT_MS").toList ms ∧
      -2 ^ 63 ≤ ms ∧ ms < 2 ^ 63 ∧ timeout = Int64.ofInt ms * 1000000

/-- The variable is empty, or a numeral of a number of `bits` bits. -/
def Parsable (env : Environment) (name : String) (bits : Nat) : Prop :=
  env name = "" ∨ ∃ n, Numeral (env name).toList n ∧ n < 2 ^ bits

/-- The variables of the retries and the limits, with the bits of their fields. -/
def limitVariables : List (String × Nat) :=
  [("SIMQUEUE_MAX_RETRIES", 16), ("SIMQUEUE_MAX_QUEUED_PROCESSABLE_ITEMS_LOW_PRIO", 64),
    ("SIMQUEUE_MAX_QUEUED_PROCESSABLE_ITEMS_HIGH_PRIO", 64), ("SIMQUEUE_MAX_QUEUED_UNPROCESSABLE_ITEMS_LOW_PRIO", 64),
    ("SIMQUEUE_MAX_QUEUED_UNPROCESSABLE_ITEMS_HIGH_PRIO", 64)]

section
variable {env : Environment} {name : String} {config config' : EnvConfig}

theorem Setting.parsable {default value bits : Nat} (h : Setting env name default value) (hlt : value < 2 ^ bits) :
    Parsable env name bits := by
  rcases h with ⟨hempty, -⟩ | ⟨-, hn⟩
  · exact .inl hempty
  · exact .inr ⟨value, hn, hlt⟩

theorem Parsable.setting {bits : Nat} (h : Parsable env name bits) (default : Nat) (hdefault : default < 2 ^ bits) :
    ∃ value, value < 2 ^ bits ∧ Setting env name default value := by
  by_cases hempty : env name = ""
  · exact ⟨default, hdefault, .inl ⟨hempty, rfl⟩⟩
  · obtain ⟨n, hn, hlt⟩ := h.resolve_left hempty
    exact ⟨n, hlt, .inr ⟨hempty, hn⟩⟩

theorem Parsable.limit (h : Parsable env name 64) (default : Nat) (hdefault : default < 2 ^ 64) :
    ∃ v : UInt64, Setting env name default v.toNat := by
  obtain ⟨n, hlt, hs⟩ := h.setting default hdefault
  exact ⟨UInt64.ofNat n, by rwa [UInt64.toNat_ofNat_of_lt' hlt]⟩

theorem fromEnv_ok {α : Type} {parse : List Char → Except NumErr α} {set : α → EnvConfig → EnvConfig} :
    fromEnv env name parse set config = .ok config' ↔
      env name = "" ∧ config = config' ∨
        env name ≠ "" ∧ ∃ v, parse (env name).toList = .ok v ∧ set v config = config' := by
  unfold fromEnv
  by_cases hempty : env name = ""
  · simp [hempty, pure_ok]
  · cases hparse : parse (env name).toList with
    | error e => simp [hempty, throw_eq_error]
    | ok v => simp [hempty, pure_ok]

/-- A field of `bits` bits, as `ofNat` makes it from what was read. -/
theorem uintFromEnv_ok {β : Type} {bits : Nat} {ofNat : Nat → β} {toNat : β → Nat} {get : EnvConfig → β}
    {set : β → EnvConfig → EnvConfig} (hbits : bits ≤ 64) (hlt : ∀ v, toNat v < 2 ^ bits)
    (hread : ∀ n < 2 ^ bits, toNat (ofNat n) = n) (hinv : ∀ v, ofNat (toNat v) = v) (hsame : ∀ c, set (get c) c = c) :
    fromEnv env name (parseUint bits) (fun n c => set (ofNat n) c) config = .ok config' ↔
      ∃ v, Setting env name (toNat (get config)) (toNat v) ∧ set v config = config' := by
  simp only [fromEnv_ok, parseUint_ok hbits]
  constructor
  · rintro (⟨hempty, rfl⟩ | ⟨hset, n, ⟨hn, hsmall⟩, rfl⟩)
    · exact ⟨get config, .inl ⟨hempty, rfl⟩, hsame config⟩
    · exact ⟨ofNat n, .inr ⟨hset, by rwa [hread n hsmall]⟩, rfl⟩
  · rintro ⟨v, ⟨hempty, hv⟩ | ⟨hset, hv⟩, rfl⟩
    · have hget : v = get config := by rw [← hinv v, hv, hinv]
      exact .inl ⟨hempty, by rw [hget, hsame]⟩
    · exact .inr ⟨hset, toNat v, ⟨hv, hlt v⟩, by rw [hinv]⟩

theorem retriesFromEnv_ok :
    fromEnv env name (parseUint 16) (fun n c => { c with queue := { c.queue with maxRetries := UInt16.ofNat n } }) config =
        .ok config' ↔
      ∃ v : UInt16, Setting env name config.queue.maxRetries.toNat v.toNat ∧
        { config with queue := { config.queue with maxRetries := v } } = config' :=
  @uintFromEnv_ok env name config config' UInt16 16 UInt16.ofNat UInt16.toNat (·.queue.maxRetries)
    (fun v c => { c with queue := { c.queue with maxRetries := v } }) (by decide) UInt16.toNat_lt
    (fun _ h => UInt16.toNat_ofNat_of_lt' h) (fun _ => UInt16.ofNat_toNat) fun _ => rfl

theorem limitFromEnv_ok {get : RedisQueueConfig → UInt64} {set : UInt64 → RedisQueueConfig → RedisQueueConfig}
    (hsame : ∀ c, set (get c) c = c) :
    limitFromEnv env name set config = .ok config' ↔
      ∃ v : UInt64, Setting env name (get config.queue).toNat v.toNat ∧
        { config with queue := set v config.queue } = config' :=
  @uintFromEnv_ok env name config config' UInt64 64 UInt64.ofNat UInt64.toNat (get ·.queue)
    (fun v c => { c with queue := set v c.queue }) (le_refl 64) UInt64.toNat_lt
    (fun _ h => UInt64.toNat_ofNat_of_lt' h) (fun _ => UInt64.ofNat_toNat) fun c => by rw [hsame]

theorem timeoutFromEnv_ok :
    fromEnv env "SIMQUEUE_WORKER_TIMEOUT_MS" (parseInt 64)
        (fun ms c => { c with workerTimeout := Int64.ofInt ms * 1000000 }) config = .ok config' ↔
      ∃ v, TimeoutSetting env config.workerTimeout v ∧ { config with workerTimeout := v } = config' := by
  simp only [fromEnv_ok, parseInt_ok (by decide : 0 < 64) (le_refl 64)]
  constructor
  · rintro (⟨hempty, rfl⟩ | ⟨hset, ms, ⟨hms, hlow, hhigh⟩, rfl⟩)
    · exact ⟨config.workerTimeout, .inl ⟨hempty, rfl⟩, rfl⟩
    · exact ⟨_, .inr ⟨hset, ms, hms, hlow, hhigh, rfl⟩, rfl⟩
  · rintro ⟨v, ⟨hempty, rfl⟩ | ⟨hset, ms, hms, hlow, hhigh, rfl⟩, rfl⟩
    · exact .inl ⟨hempty, rfl⟩
    · exact .inr ⟨hset, ms, ⟨hms, hlow, hhigh⟩, rfl⟩

end

/-- Every field is what its own variable says, or the default. -/
structure Configured (outOfRange : UInt64) (env : Environment) (config : EnvConfig) : Prop where
  outOfRange : config.queue.outOfRange = outOfRange
  retries : Setting env "SIMQUEUE_MAX_RETRIES" 30 config.queue.maxRetries.toNat
  processableLow : Setting env "SIMQUEUE_MAX_QUEUED_PROCESSABLE_ITEMS_LOW_PRIO" 1024
    config.queue.maxQueuedProcessableItemsLowPrio.toNat
  processableHigh : Setting env "SIMQUEUE_MAX_QUEUED_PROCESSABLE_ITEMS_HIGH_PRIO" 2048
    config.queue.maxQueuedProcessableItemsHighPrio.toNat
  unprocessableLow : Setting env "SIMQUEUE_MAX_QUEUED_UNPROCESSABLE_ITEMS_LOW_PRIO" 3072
    config.queue.maxQueuedUnprocessableItemsLowPrio.toNat
  unprocessableHigh : Setting env "SIMQUEUE_MAX_QUEUED_UNPROCESSABLE_ITEMS_HIGH_PRIO" 4096
    config.queue.maxQueuedUnprocessableItemsHighPrio.toNat
  timeout : TimeoutSetting env 4000000000 config.workerTimeout

theorem configFromEnv_ok {outOfRange : UInt64} {env : Environment} {config : EnvConfig} :
    configFromEnv outOfRange env = .ok config ↔ Configured outOfRange env config := by
  have hpl {env name config config'} := @limitFromEnv_ok env name config config'
    RedisQueueConfig.maxQueuedProcessableItemsLowPrio (fun n c => { c with maxQueuedProcessableItemsLowPrio := n })
    fun _ => rfl
  have hph {env name config config'} := @limitFromEnv_ok env name config config'
    RedisQueueConfig.maxQueuedProcessableItemsHighPrio (fun n c => { c with maxQueuedProcessableItemsHighPrio := n })
    fun _ => rfl
  have hul {env name config config'} := @limitFromEnv_ok env name config config'
    RedisQueueConfig.maxQueuedUnprocessableItemsLowPrio (fun n c => { c with maxQueuedUnprocessableItemsLowPrio := n })
    fun _ => rfl
  have huh {env name config config'} := @limitFromEnv_ok env name config config'
    RedisQueueConfig.maxQueuedUnprocessableItemsHighPrio (fun n c => { c with maxQueuedUnprocessableItemsHighPrio := n })
    fun _ => rfl
  simp only [configFromEnv, bind_ok]
  constructor
  · rintro ⟨c₁, h₁, c₂, h₂, c₃, h₃, c₄, h₄, c₅, h₅, h₆⟩
    obtain ⟨v₁, s₁, rfl⟩ := retriesFromEnv_ok.1 h₁
    obtain ⟨v₂, s₂, rfl⟩ := hpl.1 h₂
    obtain ⟨v₃, s₃, rfl⟩ := hph.1 h₃
    obtain ⟨v₄, s₄, rfl⟩ := hul.1 h₄
    obtain ⟨v₅, s₅, rfl⟩ := huh.1 h₅
    obtain ⟨v₆, s₆, rfl⟩ := timeoutFromEnv_ok.1 h₆
    exact ⟨rfl, s₁, s₂, s₃, s₄, s₅, s₆⟩
  · rintro ⟨rfl, s₁, s₂, s₃, s₄, s₅, s₆⟩
    exact ⟨_, retriesFromEnv_ok.2 ⟨_, s₁, rfl⟩, _, hpl.2 ⟨_, s₂, rfl⟩, _, hph.2 ⟨_, s₃, rfl⟩, _, hul.2 ⟨_, s₄, rfl⟩, _,
      huh.2 ⟨_, s₅, rfl⟩, timeoutFromEnv_ok.2 ⟨_, s₆, rfl⟩⟩

/-- `ConfigFromEnv` returns a configuration with every field what its own variable
says, or the default where that is empty; and it returns an error exactly if one
of the variables is set to something else than a numeral in its range. -/
theorem config_from_env (outOfRange : UInt64) (env : Environment) :
    (∀ config, configFromEnv outOfRange env = .ok config ↔ Configured outOfRange env config) ∧
    ((∃ e, configFromEnv outOfRange env = .error e) ↔
      (∃ v ∈ limitVariables, ¬Parsable env v.1 v.2) ∨ ∀ t, ¬TimeoutSetting env 4000000000 t) := by
  refine ⟨fun _ => configFromEnv_ok, ?_⟩
  constructor
  · rintro ⟨e, he⟩
    by_contra hall
    simp only [not_or, not_exists, not_and, not_not, not_forall, limitVariables, List.forall_mem_cons] at hall
    obtain ⟨⟨hr, hpl, hph, hul, huh, -⟩, t, ht⟩ := hall
    obtain ⟨r, hlt, sr⟩ := hr.setting 30 (by decide)
    obtain ⟨pl, spl⟩ := hpl.limit 1024 (by decide)
    obtain ⟨ph, sph⟩ := hph.limit 2048 (by decide)
    obtain ⟨ul, sul⟩ := hul.limit 3072 (by decide)
    obtain ⟨uh, suh⟩ := huh.limit 4096 (by decide)
    have hok : configFromEnv outOfRange env = .ok ⟨⟨UInt16.ofNat r, pl, ph, ul, uh, outOfRange⟩, t⟩ :=
      configFromEnv_ok.2 ⟨rfl, by rwa [UInt16.toNat_ofNat_of_lt' hlt], spl, sph, sul, suh, ht⟩
    rw [he] at hok
    cases hok
  · intro hbad
    cases hload : configFromEnv outOfRange env with
    | error e => exact ⟨e, rfl⟩
    | ok config =>
      have hc := configFromEnv_ok.1 hload
      rcases hbad with ⟨v, hv, hnot⟩ | ht
      · refine absurd ?_ hnot
        simp only [limitVariables, List.mem_cons, List.not_mem_nil, or_false] at hv
        rcases hv with rfl | rfl | rfl | rfl | rfl
        · exact hc.retries.parsable (UInt16.toNat_lt _)
        · exact hc.processableLow.parsable (UInt64.toNat_lt _)
        · exact hc.processableHigh.parsable (UInt64.toNat_lt _)
        · exact hc.unprocessableLow.parsable (UInt64.toNat_lt _)
        · exact hc.unprocessableHigh.parsable (UInt64.toNat_lt _)
      · exact absurd hc.timeout (ht _)

-- a negative timeout is accepted, and one that is too long wraps around
example : (configFromEnv 0 fun name => if name = "SIMQUEUE_WORKER_TIMEOUT_MS" then "-1" else "") =
    .ok { defaultQueueConfig 0 with workerTimeout := -1000000 } := by decide +kernel

example : (configFromEnv 0 fun name => if name = "SIMQUEUE_WORKER_TIMEOUT_MS" then "9223372036855" else "") =
    .ok { defaultQueueConfig 0 with workerTimeout := -9223372036854551616 } := by decide +kernel

end MevShare.Queue
