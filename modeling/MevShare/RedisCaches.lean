import MevShare.Api
import MevShare.BundleHash
import MevShare.Lib.Expiring
import MevShare.Lib.Hex
import MevShare.Lib.SortedSet
/-!
# One Redis for the queue and the two caches

`mevshare/cancellation_cache.go`, `adapters/redis/replacement.go` and the
commands of `simqueue/queue.go`, with the names and durations of
`cmd/node/main.go`. The three use one Redis database: the keys of the
cancellation cache start with `node-cancel`, those of the replacement cache with
`node-replacement`, and the queue is the sorted set `node`.

A run is the list of the commands that Redis executes, each with its time. A
command whose answer is lost, or that the client sends again, is in it as often
as it is executed, and one that does not get to Redis is not in it.
`IncReplacementNonce` is two commands, and the second one may be missing.

Above it are three stores that share nothing (`Caches`), and above these the
counters of `Api`, which never expire.
-/
open Lib

namespace MevShare

/-! ## Redis -/

inductive RedisValue where
  | text (n : Int64)
  | zset (entries : List (Nat × Bytes))
deriving DecidableEq, Repr

abbrev Redis := Keyspace String RedisValue

inductive Command where
  /-- `SET key 1 EX …` of `RedisCancellationCache.Add` -/
  | add (h : Hash)
  /-- `MGET key …` of `IsCancelled` -/
  | isCancelled (hashes : List Hash)
  /-- the two commands of `IncReplacementNonce` -/
  | incr (key : ReplacementKey)
  | expire (key : ReplacementKey)
  /-- `GET key` of `GetReplacementNonce` -/
  | getNonce (key : ReplacementKey)
  | zadd (score : Nat) (member : Bytes)
  | zpopmin
  | zcountUpTo (max : Nat)
  | zcountFrom (min : Nat)
deriving DecidableEq, Repr

/-- What the caller makes of Redis's answer. -/
inductive Reply where
  | ok
  | cancelled (b : Bool)
  | nonce (n : UInt64)
  | popped (entry : Option (Nat × Bytes))
  | counted (n : Nat)
  | missing | wrongType | overflow | wrongArity
deriving DecidableEq, Repr

/-- Milliseconds: `30*12*time.Second` and `3*time.Hour`. -/
def cancelDuration : Nat := 360000
def replacementDuration : Nat := 10800000

def queueName : String := "node"

/-- `c.keyPrefix+hash.Hex()`. -/
def cancelKey (h : Hash) : String := "node-cancel" ++ ("0x" ++ String.ofList (encodeHex (hashBytes h)))

/-- `r.keyPrefix+signingAddress+replacementUUID`. -/
def replacementKey (D : Deps) (key : ReplacementKey) : String := "node-replacement" ++ (D.addressString key.1 ++ key.2)

/-- `MGET` gives nil for a key that holds no text. -/
def isText : Option (Entry RedisValue) → Bool
  | some ⟨.text _, _⟩ => true
  | _ => false

/-- `MGET` without a key is an error, and `INCR` does not go past the largest integer. -/
def Redis.exec (D : Deps) (now : Nat) (r : Redis) : Command → Redis × Reply
  | .add h => (r.write (cancelKey h) (some ⟨.text 1, some (now + cancelDuration)⟩), .ok)
  | .isCancelled [] => (r, .wrongArity)
  | .isCancelled (h :: hashes) => (r, .cancelled ((h :: hashes).any fun h => isText (r.find now (cancelKey h))))
  | .incr key =>
    match r.find now (replacementKey D key) with
    | none => (r.write (replacementKey D key) (some ⟨.text 1, none⟩), .nonce 1)
    | some ⟨.text n, deadline⟩ =>
      if n = Int64.maxValue then (r, .overflow)
      else (r.write (replacementKey D key) (some ⟨.text (n + 1), deadline⟩), .nonce (n + 1).toUInt64)
    | some ⟨.zset _, _⟩ => (r, .wrongType)
  | .expire key => (r.expire now (replacementKey D key) (now + replacementDuration), .ok)
  | .getNonce key =>
    match r.find now (replacementKey D key) with
    | none => (r, .missing)
    | some ⟨.text n, _⟩ => (r, .nonce n.toUInt64)
    | some ⟨.zset _, _⟩ => (r, .wrongType)
  | .zadd score member =>
    match r.find now queueName with
    | none => (r.write queueName (some ⟨.zset [(score, member)], none⟩), .ok)
    | some ⟨.zset z, deadline⟩ => (r.write queueName (some ⟨.zset (Lib.zadd z score member), deadline⟩), .ok)
    | some ⟨.text _, _⟩ => (r, .wrongType)
  | .zpopmin =>
    match r.find now queueName with
    | none => (r, .popped none)
    | some ⟨.zset z, deadline⟩ =>
      match popMin z with
      | none => (r, .popped none)
      -- a sorted set is gone with its last member
      | some (x, []) => (r.write queueName none, .popped (some x))
      | some (x, rest) => (r.write queueName (some ⟨.zset rest, deadline⟩), .popped (some x))
    | some ⟨.text _, _⟩ => (r, .wrongType)
  | .zcountUpTo max =>
    match r.find now queueName with
    | none => (r, .counted 0)
    | some ⟨.zset z, _⟩ => (r, .counted (Lib.zcountUpTo z max))
    | some ⟨.text _, _⟩ => (r, .wrongType)
  | .zcountFrom min =>
    match r.find now queueName with
    | none => (r, .counted 0)
    | some ⟨.zset z, _⟩ => (r, .counted (Lib.zcountFrom z min))
    | some ⟨.text _, _⟩ => (r, .wrongType)

/-- The commands one after the other. -/
def Redis.execAll (D : Deps) (r : Redis) (commands : List (Nat × Command)) : Redis :=
  commands.foldl (fun r c => (r.exec D c.1 c.2).1) r

/-- Redis after the commands, when it was empty before. -/
def redisAfter (D : Deps) (commands : List (Nat × Command)) : Redis := Redis.execAll D (fun _ => none) commands

/-! ## Three stores -/

structure Caches where
  cancelled : Keyspace Hash Unit
  nonces : Keyspace ReplacementKey Int64
  queue : List (Nat × Bytes)

def Caches.exec (now : Nat) (c : Caches) : Command → Caches × Reply
  | .add h => ({ c with cancelled := c.cancelled.write h (some ⟨(), some (now + cancelDuration)⟩) }, .ok)
  | .isCancelled [] => (c, .wrongArity)
  | .isCancelled (h :: hashes) => (c, .cancelled ((h :: hashes).any fun h => (c.cancelled.find now h).isSome))
  | .incr key =>
    match c.nonces.find now key with
    | none => ({ c with nonces := c.nonces.write key (some ⟨1, none⟩) }, .nonce 1)
    | some ⟨n, deadline⟩ =>
      if n = Int64.maxValue then (c, .overflow)
      else ({ c with nonces := c.nonces.write key (some ⟨n + 1, deadline⟩) }, .nonce (n + 1).toUInt64)
  | .expire key => ({ c with nonces := c.nonces.expire now key (now + replacementDuration) }, .ok)
  | .getNonce key =>
    match c.nonces.find now key with
    | none => (c, .missing)
    | some ⟨n, _⟩ => (c, .nonce n.toUInt64)
  | .zadd score member => ({ c with queue := Lib.zadd c.queue score member }, .ok)
  | .zpopmin =>
    match popMin c.queue with
    | none => (c, .popped none)
    | some (x, rest) => ({ c with queue := rest }, .popped (some x))
  | .zcountUpTo max => (c, .counted (Lib.zcountUpTo c.queue max))
  | .zcountFrom min => (c, .counted (Lib.zcountFrom c.queue min))

def Caches.execAll (c : Caches) (commands : List (Nat × Command)) : Caches :=
  commands.foldl (fun c cmd => (c.exec cmd.1 cmd.2).1) c

def cachesAfter (commands : List (Nat × Command)) : Caches := Caches.execAll ⟨fun _ => none, fun _ => none, []⟩ commands

theorem cachesAfter_snoc (commands : List (Nat × Command)) (c : Nat × Command) :
    cachesAfter (commands ++ [c]) = ((cachesAfter commands).exec c.1 c.2).1 := by
  rw [cachesAfter, Caches.execAll, List.foldl_concat]
  rfl

/-! ## Keys -/

variable {D : Deps}

/-- The text of an address is `0x` and forty digits, and tells addresses apart. -/
structure AddressText (D : Deps) : Prop where
  injective : Function.Injective D.addressString
  length : ∀ a, (D.addressString a).toList.length = 42

theorem append_injective {α : Type} {f : α → String} (hf : Function.Injective f) (start : String) :
    Function.Injective fun a => start ++ f a :=
  fun _ _ h => hf ((String.append_right_inj start).1 h)

theorem hex_injective : Function.Injective fun h : Hash => String.ofList (encodeHex (hashBytes h)) := by
  intro h h' heq
  exact hashBytes_injective (encodeHex_injective (String.ofList_injective heq))

theorem cancelKey_injective : Function.Injective cancelKey :=
  append_injective (append_injective hex_injective "0x") "node-cancel"

theorem addressUuid_injective (htext : AddressText D) :
    Function.Injective fun key : ReplacementKey => D.addressString key.1 ++ key.2 := by
  rintro ⟨a, uuid⟩ ⟨a', uuid'⟩ heq
  have hlist := congrArg String.toList heq
  simp only [String.toList_append] at hlist
  -- the texts of the addresses are equally long
  obtain ⟨haddr, huuid⟩ := List.append_inj hlist (by rw [htext.length, htext.length])
  rw [htext.injective (String.toList_inj.1 haddr), String.toList_inj.1 huuid]

theorem replacementKey_injective (htext : AddressText D) : Function.Injective (replacementKey D) :=
  append_injective (addressUuid_injective htext) "node-replacement"

theorem letter_append {start : String} {i : Nat} {c : Char} (h : start.toList[i]? = some c) (rest : String) :
    (start ++ rest).toList[i]? = some c := by
  rw [String.toList_append]
  exact List.getElem?_append_left (List.getElem?_eq_some_iff.1 h).1 ▸ h

/-- The three kinds of keys differ in their sixth letter. -/
theorem cancelKey_letter (h : Hash) : (cancelKey h).toList[5]? = some 'c' := letter_append (by decide) _

theorem replacementKey_letter (D : Deps) (key : ReplacementKey) : (replacementKey D key).toList[5]? = some 'r' :=
  letter_append (by decide) _

theorem ne_of_letter {s t : String} {c : Char} (hs : s.toList[5]? = some c) (ht : t.toList[5]? ≠ some c) : s ≠ t := by
  rintro rfl
  exact ht hs

theorem cancelKey_ne_replacementKey (D : Deps) (h : Hash) (key : ReplacementKey) : cancelKey h ≠ replacementKey D key :=
  ne_of_letter (cancelKey_letter h) (by rw [replacementKey_letter]; decide)

theorem cancelKey_ne_queueName (h : Hash) : cancelKey h ≠ queueName :=
  ne_of_letter (cancelKey_letter h) (by decide)

theorem replacementKey_ne_queueName (D : Deps) (key : ReplacementKey) : replacementKey D key ≠ queueName :=
  ne_of_letter (replacementKey_letter D key) (by decide)

/-! ## The one keyspace holds the three stores -/

structure Redis.Holds (D : Deps) (r : Redis) (c : Caches) : Prop where
  cancelled : Keyspace.Shows cancelKey (fun _ => .text 1) r c.cancelled
  nonces : Keyspace.Shows (replacementKey D) .text r c.nonces
  queue : r queueName = if c.queue = [] then none else some ⟨.zset c.queue, none⟩

variable {r : Redis} {c : Caches}

theorem Redis.Holds.write_cancelled (h : r.Holds D c) (hash : Hash) (deadline : Option Nat) :
    Redis.Holds D (r.write (cancelKey hash) (some ⟨.text 1, deadline⟩))
      { c with cancelled := c.cancelled.write hash (some ⟨(), deadline⟩) } where
  cancelled := h.cancelled.write cancelKey_injective hash (some ⟨(), deadline⟩)
  nonces := h.nonces.write_other (fun key => (cancelKey_ne_replacementKey D hash key).symm) _
  queue := by rw [Keyspace.write_of_ne (cancelKey_ne_queueName hash).symm, h.queue]

theorem Redis.Holds.write_nonce (h : r.Holds D c) (htext : AddressText D) (key : ReplacementKey) (e : Entry Int64) :
    Redis.Holds D (r.write (replacementKey D key) (some (e.map .text)))
      { c with nonces := c.nonces.write key (some e) } where
  cancelled := h.cancelled.write_other (fun hash => cancelKey_ne_replacementKey D hash key) _
  nonces := h.nonces.write (replacementKey_injective htext) key (some e)
  queue := by rw [Keyspace.write_of_ne (replacementKey_ne_queueName D key).symm, h.queue]

theorem Redis.Holds.write_queue (h : r.Holds D c) (z : List (Nat × Bytes)) :
    Redis.Holds D (r.write queueName (if z = [] then none else some ⟨.zset z, none⟩)) { c with queue := z } where
  cancelled := h.cancelled.write_other cancelKey_ne_queueName _
  nonces := h.nonces.write_other (replacementKey_ne_queueName D) _
  queue := by rw [Keyspace.write_self]

theorem Redis.Holds.find_queue (h : r.Holds D c) (now : Nat) :
    (c.queue = [] ∧ r.find now queueName = none) ∨ r.find now queueName = some ⟨.zset c.queue, none⟩ := by
  rw [Keyspace.find, h.queue]
  split
  · exact .inl ⟨‹_›, rfl⟩
  · exact .inr rfl

theorem isText_cancelled (h : r.Holds D c) (now : Nat) (hash : Hash) :
    isText (r.find now (cancelKey hash)) = (c.cancelled.find now hash).isSome := by
  rw [h.cancelled.find]
  cases c.cancelled.find now hash <;> rfl

/-- One command is answered as the three stores answer it. -/
theorem Redis.Holds.exec (h : r.Holds D c) (htext : AddressText D) (now : Nat) (command : Command) :
    (r.exec D now command).2 = (c.exec now command).2 ∧ (r.exec D now command).1.Holds D (c.exec now command).1 := by
  cases command with
  | add hash => exact ⟨rfl, h.write_cancelled hash _⟩
  | isCancelled hashes =>
    cases hashes with
    | nil => exact ⟨rfl, h⟩
    | cons hash hashes => exact ⟨by simp only [Redis.exec, Caches.exec, isText_cancelled h], h⟩
  | incr key =>
    simp only [Redis.exec, Caches.exec, h.nonces.find]
    cases c.nonces.find now key with
    | none => exact ⟨rfl, h.write_nonce htext key ⟨1, none⟩⟩
    | some e =>
      simp only [Option.map_some, Entry.map]
      split
      · exact ⟨rfl, h⟩
      · exact ⟨rfl, h.write_nonce htext key ⟨e.value + 1, e.deadline⟩⟩
  | expire key =>
    simp only [Redis.exec, Caches.exec, true_and]
    refine ⟨?_, ?_, ?_⟩
    · exact h.cancelled.expire_other (fun hash => cancelKey_ne_replacementKey D hash key) _ _
    · exact h.nonces.expire (replacementKey_injective htext) now key _
    · exact (Keyspace.expire_of_ne (replacementKey_ne_queueName D key).symm).trans h.queue
  | getNonce key =>
    simp only [Redis.exec, Caches.exec, h.nonces.find]
    cases c.nonces.find now key with
    | none => exact ⟨rfl, h⟩
    | some e => exact ⟨rfl, h⟩
  | zadd score member =>
    have hw := h.write_queue (Lib.zadd c.queue score member)
    rw [if_neg (by simp [Lib.zadd])] at hw
    rcases h.find_queue now with ⟨hnil, hf⟩ | hf
    · simp only [Redis.exec, Caches.exec, hf, hnil] at hw ⊢
      exact ⟨trivial, hw⟩
    · simp only [Redis.exec, Caches.exec, hf]
      exact ⟨trivial, hw⟩
  | zpopmin =>
    rcases h.find_queue now with ⟨hnil, hf⟩ | hf
    · simp only [Redis.exec, Caches.exec, hf, hnil]
      exact ⟨rfl, h⟩
    · simp only [Redis.exec, Caches.exec, hf]
      rcases popMin c.queue with _ | ⟨x, rest⟩
      · exact ⟨rfl, h⟩
      · have hw := h.write_queue rest
        cases rest with
        | nil => exact ⟨rfl, hw⟩
        | cons y rest => exact ⟨rfl, hw⟩
  | zcountUpTo max =>
    rcases h.find_queue now with ⟨hnil, hf⟩ | hf
    · simp only [Redis.exec, Caches.exec, hf, hnil]
      exact ⟨rfl, h⟩
    · simp only [Redis.exec, Caches.exec, hf]
      exact ⟨trivial, h⟩
  | zcountFrom min =>
    rcases h.find_queue now with ⟨hnil, hf⟩ | hf
    · simp only [Redis.exec, Caches.exec, hf, hnil]
      exact ⟨rfl, h⟩
    · simp only [Redis.exec, Caches.exec, hf]
      exact ⟨trivial, h⟩

theorem holds_after (htext : AddressText D) (commands : List (Nat × Command)) :
    (redisAfter D commands).Holds D (cachesAfter commands) := by
  induction commands using List.reverseRecOn with
  | nil => exact ⟨fun _ => rfl, fun _ => rfl, rfl⟩
  | append_singleton commands command ih =>
    rw [redisAfter, Redis.execAll, List.foldl_concat, cachesAfter_snoc]
    exact (ih.exec htext command.1 command.2).2

theorem Caches.reply_ne_wrongType (c : Caches) (now : Nat) (command : Command) : (c.exec now command).2 ≠ .wrongType := by
  fun_cases Caches.exec now c command <;> simp

/-- The caches and the queue share a keyspace and never meet in it: whatever is
executed before, every command is answered as three separate stores answer it,
and no key ever holds a value of another kind than its reader expects. -/
theorem shared_redis_apart (htext : AddressText D) (commands : List (Nat × Command)) (now : Nat) (command : Command) :
    ((redisAfter D commands).exec D now command).2 = ((cachesAfter commands).exec now command).2 ∧
      ((redisAfter D commands).exec D now command).2 ≠ .wrongType := by
  have hreply := ((holds_after htext commands).exec htext now command).1
  exact ⟨hreply, hreply ▸ Caches.reply_ne_wrongType _ _ _⟩

/-! ## When a key was last written -/

/-- The time of the last command like this. -/
def lastTime (command : Command) (commands : List (Nat × Command)) : Option Nat :=
  ((commands.filter fun c => c.2 = command).getLast?).map Prod.fst

theorem lastTime_snoc (command : Command) (commands : List (Nat × Command)) (c : Nat × Command) :
    lastTime command (commands ++ [c]) = if c.2 = command then some c.1 else lastTime command commands := by
  unfold lastTime
  rw [List.filter_append]
  split <;> simp_all

/-- While time does not run backwards, the last of these commands is the one to look at. -/
theorem lastTime_latest (command : Command) {commands : List (Nat × Command)}
    (htimes : (commands.map Prod.fst).Pairwise (· ≤ ·)) (now duration : Nat) :
    (∃ c ∈ commands, c.2 = command ∧ now ≤ c.1 + duration) ↔
      ∃ t ∈ lastTime command commands, now ≤ t + duration := by
  induction commands using List.reverseRecOn with
  | nil => simp [lastTime]
  | append_singleton commands c ih =>
    rw [List.map_append, List.pairwise_append] at htimes
    rw [lastTime_snoc]
    by_cases hc : c.2 = command
    · have hlast : ∀ c' ∈ commands, c'.1 ≤ c.1 :=
        fun c' hc' => htimes.2.2 c'.1 (List.mem_map_of_mem hc') c.1 (by simp)
      constructor
      · rintro ⟨c', hc', -, hnow⟩
        refine ⟨c.1, by simp [hc], ?_⟩
        rcases List.mem_append.1 hc' with hc' | hc'
        · have := hlast c' hc'
          omega
        · rwa [← List.mem_singleton.1 hc']
      · rintro ⟨t, ht, hnow⟩
        rw [if_pos hc, Option.mem_some_iff] at ht
        exact ⟨c, by simp, hc, ht ▸ hnow⟩
    · rw [if_neg hc, ← ih htimes.1]
      simp [or_and_right, exists_or, hc]

/-! ## The cancellation cache -/

theorem Caches.cancelled_exec (c : Caches) (now : Nat) (command : Command) (h : Hash) :
    (c.exec now command).1.cancelled h =
      if command = .add h then some ⟨(), some (now + cancelDuration)⟩ else c.cancelled h := by
  fun_cases Caches.exec now c command with
  | case1 h' =>
    by_cases hh : h' = h
    · simp [hh]
    · rw [if_neg (by simpa using hh)]
      exact Keyspace.write_of_ne (Ne.symm hh)
  | _ => simp

theorem cancelled_after (commands : List (Nat × Command)) (h : Hash) :
    (cachesAfter commands).cancelled h =
      (lastTime (.add h) commands).map fun t => ⟨(), some (t + cancelDuration)⟩ := by
  induction commands using List.reverseRecOn with
  | nil => rfl
  | append_singleton commands c ih =>
    rw [cachesAfter_snoc, lastTime_snoc, Caches.cancelled_exec, ih]
    split <;> rfl

theorem find_cancelled_iff {commands : List (Nat × Command)} (htimes : (commands.map Prod.fst).Pairwise (· ≤ ·))
    (now : Nat) (h : Hash) :
    ((cachesAfter commands).cancelled.find now h).isSome =
      commands.any fun c => c.2 = .add h && now ≤ c.1 + cancelDuration := by
  rw [Bool.eq_iff_iff, Keyspace.find, cancelled_after]
  have hlatest := lastTime_latest (.add h) htimes now cancelDuration
  cases hlast : lastTime (.add h) commands with
  | none => simpa [hlast] using hlatest
  | some t => simpa [hlast, Entry.live, Option.filter_some] using hlatest.symm

/-- Over every run of commands, `IsCancelled` answers whether one of the hashes
was added at most thirty blocks of twelve seconds ago; nothing else that goes
through the same Redis changes that. -/
theorem isCancelled_window (htext : AddressText D) {commands : List (Nat × Command)}
    (htimes : (commands.map Prod.fst).Pairwise (· ≤ ·)) (now : Nat) {hashes : List Hash} (hne : hashes ≠ []) :
    ((redisAfter D commands).exec D now (.isCancelled hashes)).2 =
      .cancelled (hashes.any fun h => commands.any fun c => c.2 = .add h && now ≤ c.1 + cancelDuration) := by
  rw [((holds_after htext commands).exec htext now _).1]
  cases hashes with
  | nil => exact absurd rfl hne
  | cons h hashes => simp only [Caches.exec, find_cancelled_iff htimes]

/-! ## The replacement cache

`Api` counts without end. Redis counts like it as long as no key is used more
than three hours after its last `EXPIRE`. -/

def Command.uses (key : ReplacementKey) : Command → Bool
  | .incr key' | .expire key' | .getNonce key' => key' = key
  | _ => false

/-- No command on a key comes after the deadline that the last `EXPIRE` of the key set. -/
def Renewed (commands : List (Nat × Command)) : Prop :=
  ∀ before c after key, commands = before ++ c :: after → c.2.uses key →
    ∀ t ∈ lastTime (.expire key) before, c.1 ≤ t + replacementDuration

/-- The counters of `Api` under the same commands. -/
def Api.execNonce (s : Api) : Command → Api × Option Reply
  | .incr key =>
    match s.incReplacementNonce key false with
    | .ok (nonce, s') => (s', some (.nonce nonce))
    | .error _ => (s, some .overflow)
  | .getNonce key =>
    match s.getReplacementNonce key with
    | .ok nonce => (s, some (.nonce nonce))
    | .error _ => (s, some .missing)
  | _ => (s, none)

def Api.noncesAfter (s : Api) (commands : List (Nat × Command)) : Api :=
  commands.foldl (fun s c => (s.execNonce c.2).1) s

theorem renewed_snoc (commands : List (Nat × Command)) (c : Nat × Command) :
    Renewed (commands ++ [c]) ↔ Renewed commands ∧
      ∀ key, c.2.uses key → ∀ t ∈ lastTime (.expire key) commands, c.1 ≤ t + replacementDuration := by
  constructor
  · intro h
    refine ⟨fun before c' after key heq => ?_, fun key huses => h commands c [] key rfl huses⟩
    exact h before c' (after ++ [c]) key (by rw [heq, List.append_assoc, List.cons_append])
  · rintro ⟨h, hlast⟩ before c' after key heq huses
    rcases snoc_eq_append_cons heq with ⟨rfl, rfl, -⟩ | ⟨after', -, heq'⟩
    · exact hlast key huses
    · exact h before c' after' key heq' huses

theorem Renewed.last {commands : List (Nat × Command)} {now : Nat} {command : Command}
    (h : Renewed (commands ++ [(now, command)])) (key : ReplacementKey) (huses : command.uses key) :
    ∀ t ∈ lastTime (.expire key) commands, now ≤ t + replacementDuration :=
  ((renewed_snoc _ _).1 h).2 key huses

/-- What Redis has for a counter of `Api`. -/
inductive NonceShown (commands : List (Nat × Command)) (key : ReplacementKey) (count : UInt64) : Option (Entry Int64) → Prop
  | absent : count = 0 → NonceShown commands key count none
  | present {n deadline} : 0 < n → count = n.toUInt64 →
      (∀ d ∈ deadline, ∃ t ∈ lastTime (.expire key) commands, d = t + replacementDuration) →
      NonceShown commands key count (some ⟨n, deadline⟩)

theorem NonceShown.snoc {commands : List (Nat × Command)} {key : ReplacementKey} {count : UInt64} {e : Option (Entry Int64)}
    (h : NonceShown commands key count e) {cmd : Nat × Command} (hne : cmd.2 ≠ .expire key) :
    NonceShown (commands ++ [cmd]) key count e := by
  cases h with
  | absent hzero => exact .absent hzero
  | present hpos hcount hdeadline =>
    refine .present hpos hcount ?_
    rwa [lastTime_snoc, if_neg hne]

def NoncesShown (commands : List (Nat × Command)) (c : Caches) (s : Api) : Prop :=
  ∀ key, NonceShown commands key (s.nonces key) (c.nonces key)

/-- Nothing has expired that is still used. -/
theorem NoncesShown.find {commands : List (Nat × Command)} {s : Api} {now : Nat} {key : ReplacementKey}
    (h : NoncesShown commands c s) (hnow : ∀ t ∈ lastTime (.expire key) commands, now ≤ t + replacementDuration) :
    c.nonces.find now key = c.nonces key := by
  unfold Keyspace.find
  cases hkey : c.nonces key with
  | none => rfl
  | some e =>
    have hshown := h key
    rw [hkey] at hshown
    cases hshown with
    | @present n deadline hpos hcount hdeadline =>
      refine Option.filter_eq_some_iff.2 ⟨rfl, ?_⟩
      cases deadline with
      | none => rfl
      | some d =>
        obtain ⟨t, ht, rfl⟩ := hdeadline d rfl
        simpa [Entry.live] using hnow t ht

theorem pos_add_one {n : Int64} (hpos : 0 < n) (hmax : n ≠ Int64.maxValue) : 0 < n + 1 := by
  have hlt : n.toInt < 2 ^ 63 - 1 := by
    have hle := Int64.toInt_lt n
    have hne : n.toInt ≠ 2 ^ 63 - 1 := fun h => hmax (Int64.toInt_inj.1 h)
    omega
  rw [Int64.lt_iff_toInt_lt] at hpos ⊢
  have hone : (1 : Int64).toInt = 1 := rfl
  have hzero : (0 : Int64).toInt = 0 := rfl
  rw [Int64.toInt_add, hone, Int.bmod_eq_of_le (by omega) (by omega)]
  omega

theorem toUInt64_eq_maxNonce {n : Int64} : n.toUInt64 = maxNonce ↔ n = Int64.maxValue := by
  rw [show maxNonce = Int64.maxValue.toUInt64 by decide]
  exact ⟨fun h => by simpa using congrArg UInt64.toInt64 h, fun h => h ▸ rfl⟩

theorem toUInt64_ne_zero {n : Int64} (hpos : 0 < n) : n.toUInt64 ≠ 0 := by
  intro h
  have hzero : n = 0 := by simpa using congrArg UInt64.toInt64 h
  rw [hzero] at hpos
  exact absurd hpos (by decide)

/-- A command on one key leaves the others as they are. -/
theorem NoncesShown.at_key {commands : List (Nat × Command)} {c' : Caches} {s s' : Api} {cmd : Nat × Command}
    (h : NoncesShown commands c s) (key : ReplacementKey) (hcmd : ∀ k ≠ key, cmd.2 ≠ .expire k)
    (hcaches : ∀ k ≠ key, c'.nonces k = c.nonces k) (hapi : ∀ k ≠ key, s'.nonces k = s.nonces k)
    (hkey : NonceShown (commands ++ [cmd]) key (s'.nonces key) (c'.nonces key)) : NoncesShown (commands ++ [cmd]) c' s' := by
  intro k
  by_cases hk : k = key
  · exact hk ▸ hkey
  · rw [hcaches k hk, hapi k hk]
    exact (h k).snoc (hcmd k hk)

theorem Api.execNonce_incr (s : Api) (key : ReplacementKey) :
    s.execNonce (.incr key) =
      if s.nonces key = maxNonce then (s, some .overflow)
      else (s.setNonce key (s.nonces key + 1), some (.nonce (s.nonces key + 1))) := by
  by_cases hmax : s.nonces key = maxNonce
  · simp only [Api.execNonce, Api.incReplacementNonce, hmax, decide_true, Bool.or_true, ↓reduceIte]
    rfl
  · simp only [Api.execNonce, Api.incReplacementNonce, hmax, decide_false, Bool.or_self, Bool.false_eq_true, ↓reduceIte]
    rfl

theorem NoncesShown.incr {commands : List (Nat × Command)} {s : Api} {now : Nat} {key : ReplacementKey}
    (h : NoncesShown commands c s) (hr : Renewed (commands ++ [(now, .incr key)])) :
    NoncesShown (commands ++ [(now, .incr key)]) (c.exec now (.incr key)).1 (s.execNonce (.incr key)).1 ∧
      (s.execNonce (.incr key)).2 = some (c.exec now (.incr key)).2 := by
  have hfind := h.find (hr.last key (by simp [Command.uses]))
  have hshown := h key
  have hdeadline : lastTime (.expire key) (commands ++ [(now, .incr key)]) = lastTime (.expire key) commands := by
    rw [lastTime_snoc, if_neg (by simp)]
  simp only [Caches.exec, hfind, Api.execNonce_incr]
  generalize hkey : c.nonces key = entry at hshown
  cases hshown with
  | absent hzero =>
    rw [if_neg (by rw [hzero]; decide), hzero]
    refine ⟨h.at_key key (by simp) (fun k hk => Keyspace.write_of_ne hk) (fun k hk => if_neg hk) ?_, rfl⟩
    have hentry : NonceShown (commands ++ [(now, .incr key)]) key (0 + 1) (some ⟨1, none⟩) :=
      .present (by decide) rfl (by simp)
    simpa [Api.setNonce] using hentry
  | @present n deadline hpos hcount hd =>
    dsimp only
    rw [hcount]
    by_cases hmax : n = Int64.maxValue
    · rw [if_pos hmax, if_pos (toUInt64_eq_maxNonce.2 hmax)]
      exact ⟨fun k => (h k).snoc (by simp), rfl⟩
    · rw [if_neg hmax, if_neg (mt toUInt64_eq_maxNonce.1 hmax)]
      refine ⟨h.at_key key (by simp) (fun k hk => Keyspace.write_of_ne hk) (fun k hk => if_neg hk) ?_, ?_⟩
      · have hentry : NonceShown (commands ++ [(now, .incr key)]) key (n.toUInt64 + 1) (some ⟨n + 1, deadline⟩) :=
          .present (pos_add_one hpos hmax) (Int64.toUInt64_add n 1).symm (hdeadline ▸ hd)
        simpa [Api.setNonce] using hentry
      · rw [Int64.toUInt64_add]
        rfl

theorem NoncesShown.getNonce {commands : List (Nat × Command)} {s : Api} {now : Nat} {key : ReplacementKey}
    (h : NoncesShown commands c s) (hr : Renewed (commands ++ [(now, .getNonce key)])) :
    NoncesShown (commands ++ [(now, .getNonce key)]) (c.exec now (.getNonce key)).1 (s.execNonce (.getNonce key)).1 ∧
      (s.execNonce (.getNonce key)).2 = some (c.exec now (.getNonce key)).2 := by
  have hfind := h.find (hr.last key (by simp [Command.uses]))
  have hshown := h key
  have hsame : NoncesShown (commands ++ [(now, .getNonce key)]) c s := fun k => (h k).snoc (by simp)
  simp only [Caches.exec, hfind, Api.execNonce, Api.getReplacementNonce]
  generalize hkey : c.nonces key = entry at hshown
  cases hshown with
  | absent hzero =>
    rw [if_pos hzero]
    exact ⟨hsame, rfl⟩
  | present hpos hcount hd =>
    rw [hcount, if_neg (toUInt64_ne_zero hpos)]
    exact ⟨hsame, rfl⟩

theorem NoncesShown.expire {commands : List (Nat × Command)} {s : Api} {now : Nat} {key : ReplacementKey}
    (h : NoncesShown commands c s) (hr : Renewed (commands ++ [(now, .expire key)])) :
    NoncesShown (commands ++ [(now, .expire key)]) (c.exec now (.expire key)).1 s := by
  have hfind := h.find (hr.last key (by simp [Command.uses]))
  have hshown := h key
  refine h.at_key key ?_ (fun k hk => Keyspace.expire_of_ne hk) (fun _ _ => rfl) ?_
  · rintro k hk heq
    exact hk (Command.expire.inj heq).symm
  simp only [Caches.exec, Keyspace.expire, hfind]
  generalize hkey : c.nonces key = entry at hshown
  cases hshown with
  | absent hzero =>
    dsimp only
    rw [hkey]
    exact .absent hzero
  | present hpos hcount hd =>
    dsimp only
    rw [Keyspace.write_self]
    refine .present hpos hcount fun d hd => ⟨now, ?_, (Option.mem_some_iff.1 hd).symm⟩
    rw [lastTime_snoc, if_pos rfl, Option.mem_some_iff]

/-- A command on the rest leaves all counters as they are. -/
theorem Caches.nonces_exec (c : Caches) (now : Nat) {command : Command} (h : ∀ key, command.uses key = false) :
    (c.exec now command).1.nonces = c.nonces := by
  cases command with
  | incr key | expire key | getNonce key => simp [Command.uses] at h
  | isCancelled hashes => cases hashes <;> rfl
  | zpopmin =>
    simp only [Caches.exec]
    split <;> rfl
  | _ => rfl

theorem noncesShown_after {start : Api} (hstart : ∀ key, start.nonces key = 0) {commands : List (Nat × Command)}
    (hr : Renewed commands) : NoncesShown commands (cachesAfter commands) (start.noncesAfter commands) := by
  induction commands using List.reverseRecOn with
  | nil => exact fun key => .absent (hstart key)
  | append_singleton commands cmd ih =>
    obtain ⟨now, command⟩ := cmd
    have h := ih ((renewed_snoc _ _).1 hr).1
    rw [cachesAfter_snoc, Api.noncesAfter, List.foldl_concat]
    cases command with
    | incr key => exact (h.incr hr).1
    | getNonce key => exact (h.getNonce hr).1
    | expire key => exact h.expire hr
    | _ =>
      intro key
      rw [Caches.nonces_exec _ _ (by simp [Command.uses])]
      exact (h key).snoc (by simp)

/-- While every key is renewed in time, Redis answers `IncReplacementNonce` and
`GetReplacementNonce` with the counters of `Api`, which never expire and never
go back. -/
theorem redis_counts_as_api (htext : AddressText D) (start : Api) (hstart : ∀ key, start.nonces key = 0)
    {commands : List (Nat × Command)} {now : Nat} {command : Command} (hr : Renewed (commands ++ [(now, command)])) :
    ∀ reply ∈ ((start.noncesAfter commands).execNonce command).2,
      ((redisAfter D commands).exec D now command).2 = reply := by
  rw [((holds_after htext commands).exec htext now command).1]
  have h := noncesShown_after hstart ((renewed_snoc _ _).1 hr).1
  intro reply hreply
  cases command with
  | incr key =>
    rw [(h.incr hr).2] at hreply
    exact Option.some.inj hreply
  | getNonce key =>
    rw [(h.getNonce hr).2] at hreply
    exact Option.some.inj hreply
  | _ => cases hreply

/-! ## A run -/

/-- Addresses printed in lower case. -/
def hexDeps : Deps :=
  { sampleDeps with addressString := fun a => "0x" ++ String.ofList (encodeHex (putBigEndian 20 a.toNat)) }

theorem hexDeps_text : AddressText hexDeps where
  injective := by
    refine append_injective (fun a a' heq => BitVec.eq_of_toNat_eq ?_) "0x"
    have hbytes := congrArg bigEndian (encodeHex_injective (String.ofList_injective heq))
    rwa [bigEndian_putBigEndian (by simpa using a.isLt), bigEndian_putBigEndian (by simpa using a'.isLt)] at hbytes
  length a := by
    simp only [hexDeps, String.toList_append, String.toList_ofList, List.length_append, length_encodeHex,
      length_putBigEndian]
    rfl

/-- A bundle is replaced, another one is cancelled, and an item is queued. -/
def sharedRun : List (Nat × Command) :=
  [(0, .incr (7, "uuid")), (1, .expire (7, "uuid")), (2, .add 5), (3, .zadd 9 [1])]

theorem shared_redis_apart_run :
    ((redisAfter hexDeps sharedRun).exec hexDeps 4 .zpopmin).2 = .popped (some (9, [1])) ∧
      ((redisAfter hexDeps sharedRun).exec hexDeps 4 .zpopmin).2 ≠ .wrongType := by
  have h := shared_redis_apart hexDeps_text sharedRun 4 .zpopmin
  exact ⟨h.1.trans (by decide), h.2⟩

theorem isCancelled_window_run :
    ((redisAfter hexDeps sharedRun).exec hexDeps 360002 (.isCancelled [4, 5])).2 = .cancelled true ∧
      ((redisAfter hexDeps sharedRun).exec hexDeps 360003 (.isCancelled [4, 5])).2 = .cancelled false :=
  ⟨(isCancelled_window hexDeps_text (by decide) 360002 (by decide)).trans (by decide),
    (isCancelled_window hexDeps_text (by decide) 360003 (by decide)).trans (by decide)⟩

theorem sharedRun_renewed : Renewed (sharedRun ++ [(10800001, .incr (7, "uuid"))]) := by
  have hnil : Renewed [] := fun before c after key heq => by simp at heq
  have hincr := (renewed_snoc [] (0, .incr (7, "uuid"))).2 ⟨hnil, by simp [lastTime]⟩
  have hexpire := (renewed_snoc _ (1, .expire (7, "uuid"))).2 ⟨hincr, by simp [lastTime]⟩
  have hadd := (renewed_snoc _ (2, .add 5)).2 ⟨hexpire, by simp [Command.uses]⟩
  have hzadd := (renewed_snoc _ (3, .zadd 9 [1])).2 ⟨hadd, by simp [Command.uses]⟩
  refine (renewed_snoc _ _).2 ⟨hzadd, fun key huses => ?_⟩
  have hkey : (7, "uuid") = key := of_decide_eq_true huses
  subst hkey
  decide

theorem redis_counts_as_api_run :
    ((redisAfter hexDeps sharedRun).exec hexDeps 10800001 (.incr (7, "uuid"))).2 = .nonce 2 :=
  redis_counts_as_api hexDeps_text ⟨fun _ => none, fun _ => 0, []⟩ (fun _ => rfl) sharedRun_renewed _ (by decide)

/-- An `EXPIRE` that is lost, whose error `IncReplacementNonce` ignores, is
enough for the counter to start again while its last number is in use. -/
example : ((cachesAfter [(0, .incr (7, "uuid")), (1, .expire (7, "uuid")), (10800000, .incr (7, "uuid"))]).exec
    10800002 (.incr (7, "uuid"))).2 = .nonce 1 := by decide

end MevShare
