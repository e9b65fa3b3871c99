import Meridian.Js
import Meridian.Lib.FixedWindow
import Meridian.Lib.Runs
import Meridian.Lib.Tables

/-! The counters in Redis that limit the requests of the throttled routes and the connections of
the gateway. A route has several throttlers, each with a key of its own, and a request passes them
one after the other. The key comes from headers that are not verified, so the limit is one of a key
and not of a client: it binds a client whose headers always name the same key. -/
namespace Meridian

open FixedWindow

structure RedisCounter where
  value : ℕ
  expiresAt : Option ℕ

structure Counters where
  now : ℕ
  stored : JsString → Option RedisCounter

namespace Counters

def find (r : Counters) (key : JsString) : Option RedisCounter :=
  (r.stored key).filter fun c => c.expiresAt.all (r.now ≤ ·)

def set (r : Counters) (key : JsString) (c : Option RedisCounter) : Counters :=
  { r with stored := Function.update r.stored key c }

def incr (r : Counters) (key : JsString) : Counters × ℕ :=
  match r.find key with
  | some c => (r.set key (some { c with value := c.value + 1 }), c.value + 1)
  | none => (r.set key (some ⟨1, none⟩), 1)

/-- `PEXPIRE`; a key without time left is deleted. -/
def pexpire (r : Counters) (key : JsString) (ttlMs : ℕ) : Counters :=
  match r.find key with
  | some c => r.set key
    (if ttlMs = 0 then none else some { c with expiresAt := some (r.now + ttlMs) })
  | none => r

def pttl (r : Counters) (key : JsString) : ℤ :=
  match r.find key with
  | some ⟨_, some expiresAt⟩ => expiresAt - r.now
  | some ⟨_, none⟩ => -1
  | none => -2

def throttleIncrement (r : Counters) (key : JsString) (ttlMs : ℕ) : Counters × ℕ × ℤ :=
  let (r, c) := r.incr key
  let r := if c = 1 then r.pexpire key ttlMs else r
  (r, c, r.pttl key)

end Counters

inductive ThrottlerName
  | default | auth | aiChat
  deriving DecidableEq

structure Throttler where
  name : ThrottlerName
  limit : ℕ
  ttl : ℕ
  ttl_pos : 0 < ttl
  deriving DecidableEq

/-- A handler with the throttlers that it does not skip, in their order. -/
structure ThrottledRoute where
  controller : JsString
  handler : JsString
  throttlers : List Throttler
  deriving DecidableEq

/-- `ip` is the address of the socket; `id` is the document of the path. -/
structure HttpRequest where
  route : ThrottledRoute
  ip : Option JsString
  authorization : Option JsString
  id : Option JsString

/-- A header that was sent, once or as a list. -/
inductive HeaderValue
  | string (value : JsString)
  | array (values : List JsString)

structure IncomingMessage where
  remoteAddress : Option JsString
  xForwardedFor : Option HeaderValue

structure ThrottlerStorageRecord where
  totalHits : ℕ
  timeToExpire : ℤ
  isBlocked : Bool
  timeToBlockExpire : ℤ

/-- A request in the guard: the throttlers that have counted it and those to come. A refused one
has its `Retry-After`. -/
structure GuardedRequest where
  request : HttpRequest
  counted : List (Throttler × Hit JsString ℕ)
  remaining : List Throttler
  retryAfter : Option ℤ

structure ConnectionAttempt where
  request : IncomingMessage
  hit : Hit JsString ℕ
  limited : Bool

/-- `opened` is kept for the statements, the time of the first hit of each counter. -/
structure ThrottleServer where
  redis : Counters
  opened : JsString → ℕ
  requests : List GuardedRequest
  connections : List ConnectionAttempt

inductive ThrottleAction
  | tick (ms : ℕ)
  | request (request : HttpRequest)
  | increment (i : ℕ)
  | connect (request : IncomingMessage)

/-- A JSON value that a condition takes for true. -/
def Json.isTruthy : Json → Bool
  | .null => false
  | .bool b => b
  | .num n => n ≠ 0
  | .str s => s ≠ []
  | .arr _ | .obj _ => true

section Keys

variable (decode : JsString → Option Json)
  (superGenerateKey : ThrottledRoute → JsString → ThrottlerName → JsString)

/-- The user id in the payload of a bearer token, which nobody has verified. -/
def claimedUserId (request : HttpRequest) : Option JsString :=
  request.authorization.bind fun authHeader =>
    if occursAt authHeader (js "Bearer ") 0 then
      match decode (authHeader.drop 7) with
      | some (.obj fields) => ((Json.get fields (js "userId")).filter Json.isTruthy).map Json.toText
      | _ => none
    else none

def getTracker (request : HttpRequest) : JsString :=
  match claimedUserId decode request with
  | some userId => js "user:" ++ userId
  | none => request.ip.getD (js "undefined")

def generateKey (request : HttpRequest) (suffix : JsString) (throttlerName : ThrottlerName) :
    JsString :=
  if throttlerName = .aiChat then
    superGenerateKey request.route (suffix ++ js ":doc:" ++ request.id.getD []) throttlerName
  else superGenerateKey request.route suffix throttlerName

def throttleKey (tracker : HttpRequest → JsString) (request : HttpRequest)
    (throttler : Throttler) : JsString :=
  generateKey superGenerateKey request (tracker request) throttler.name

end Keys

/-- The first address that a proxy, or the client itself, has put into the header. -/
def forwardedIp (request : IncomingMessage) : Option JsString :=
  match request.xForwardedFor with
  | some (.string forwarded) => some (trim (forwarded.takeWhile (· ≠ 44)))
  | _ => none

def extractIp (request : IncomingMessage) : JsString :=
  (forwardedIp request).getD (request.remoteAddress.getD (js "unknown"))

def storageRecord (limit totalHits : ℕ) (remainingTtlMs : ℤ) : ThrottlerStorageRecord :=
  let timeToExpire := max 0 remainingTtlMs
  let isBlocked := decide (limit < totalHits)
  ⟨totalHits, timeToExpire, isBlocked, if isBlocked then timeToExpire else 0⟩

namespace ThrottleServer

def initial (now : ℕ) : ThrottleServer where
  redis := ⟨now, fun _ => none⟩
  opened _ := 0
  requests := []
  connections := []

abbrev Initial (s : ThrottleServer) : Prop := ∃ now, s = initial now

/-- One run of the script, with the hit that it counts. -/
def hit (s : ThrottleServer) (key : JsString) (ttlMs : ℕ) :
    ThrottleServer × Hit JsString ℕ × ℤ :=
  let (redis, hits, remainingTtlMs) := s.redis.throttleIncrement key ttlMs
  let opened := if hits = 1 then s.redis.now else s.opened key
  ({ s with redis := redis, opened := Function.update s.opened key opened },
    ⟨key, s.redis.now, hits, opened, s.redis.now + remainingTtlMs.toNat⟩, remainingTtlMs)

variable (tracker : HttpRequest → JsString)
  (superGenerateKey : ThrottledRoute → JsString → ThrottlerName → JsString)
  (wsConnectionRateLimit : ℕ)

/-- `handleRequest` of the package for the next throttler of a request, with the tracker of the
guard. -/
def handleRequest (s : ThrottleServer) (g : GuardedRequest) (throttler : Throttler)
    (rest : List Throttler) : ThrottleServer × GuardedRequest :=
  let key := throttleKey superGenerateKey tracker g.request throttler
  let (s, hit, remainingTtlMs) := s.hit key throttler.ttl
  let record := storageRecord throttler.limit hit.number remainingTtlMs
  let counted := g.counted ++ [(throttler, hit)]
  if record.isBlocked then
    (s, { g with
      counted := counted
      remaining := []
      retryAfter := some ⌈(record.timeToExpire / 1000 : ℚ)⌉ })
  else (s, { g with counted := counted, remaining := rest })

/-- `handleConnection` up to its limit; the token is verified after that. -/
def handleConnection (s : ThrottleServer) (request : IncomingMessage) : ThrottleServer :=
  let (s, hit, _) := s.hit (js "ws:conn:rate:" ++ extractIp request) 60000
  { s with
    connections := s.connections ++
      [⟨request, hit, decide (wsConnectionRateLimit < hit.number)⟩] }

def step (s : ThrottleServer) : ThrottleAction → Option ThrottleServer
  | .tick ms => some { s with redis := { s.redis with now := s.redis.now + ms } }
  | .request request =>
    some { s with requests := s.requests ++ [⟨request, [], request.route.throttlers, none⟩] }
  | .increment i =>
    match s.requests[i]? with
    | some g =>
      match g.remaining with
      | throttler :: rest =>
        let (t, g) := s.handleRequest tracker superGenerateKey g throttler rest
        some { t with requests := t.requests.set i g }
      | [] => none
    | none => none
  | .connect request => some (s.handleConnection wsConnectionRateLimit request)

def windows (s : ThrottleServer) (key : JsString) : Option (Counter ℕ) :=
  (s.redis.stored key).bind fun c => c.expiresAt.map fun expires => ⟨c.value, s.opened key, expires⟩

def hits (s : ThrottleServer) : List (Hit JsString ℕ) :=
  s.requests.flatMap (fun g => g.counted.map Prod.snd) ++ s.connections.map (·.hit)

end ThrottleServer

namespace GuardedRequest

def reachesHandler (g : GuardedRequest) : Bool := g.remaining.isEmpty && g.retryAfter.isNone

def hitOf (g : GuardedRequest) (throttler : Throttler) : Option (Hit JsString ℕ) :=
  (g.counted.find? fun c => c.1 = throttler).map Prod.snd

end GuardedRequest

namespace ThrottleServer

def handled (s : ThrottleServer) (ip : Option JsString) (route : ThrottledRoute) :
    List GuardedRequest :=
  s.requests.filter fun g => g.request.ip = ip ∧ g.request.route = route ∧ g.reachesHandler

/-- Of the requests of a client to a route, no more than the limit of its `auth` throttler have
reached the handler in a window in which that throttler has counted one of them. -/
def HandlerBound (s : ThrottleServer) (ip : Option JsString) : Prop :=
  ∀ g ∈ s.requests, g.request.ip = ip → ∀ throttler ∈ g.request.route.throttlers,
    throttler.name = .auth → ∀ h ∈ g.hitOf throttler,
      ((s.handled ip g.request.route).filter fun g' =>
        (g'.hitOf throttler).all fun h' => h.Covers h'.time).length ≤ throttler.limit

/-- No more connections of a client than the limit have got past it in a window in which one of
them was counted. -/
def ConnectionBound (wsConnectionRateLimit : ℕ) (s : ThrottleServer) (ip : Option JsString) :
    Prop :=
  ∀ c ∈ s.connections, c.request.remoteAddress = ip →
    (s.connections.filter fun c' => c'.request.remoteAddress = ip ∧ c'.limited = false ∧
      c.hit.Covers c'.hit.time).length ≤ wsConnectionRateLimit

/-- The headers that a client sends name the same keys all along, or none. -/
def NamesKeys (decode : JsString → Option Json) (ip userId forwarded : Option JsString) :
    ThrottleAction → Prop
  | .request request => request.ip = ip → claimedUserId decode request = userId
  | .connect request => request.remoteAddress = ip → forwardedIp request = forwarded
  | .tick _ | .increment _ => True

instance (s : ThrottleServer) (ip : Option JsString) : Decidable (s.HandlerBound ip) :=
  inferInstanceAs (Decidable (∀ _ ∈ _, _ → _))

instance (wsConnectionRateLimit : ℕ) (s : ThrottleServer) (ip : Option JsString) :
    Decidable (s.ConnectionBound wsConnectionRateLimit ip) :=
  inferInstanceAs (Decidable (∀ _ ∈ _, _ → _))

instance (decode : JsString → Option Json) (ip userId forwarded : Option JsString) :
    ∀ action, Decidable (NamesKeys decode ip userId forwarded action)
  | .request request => inferInstanceAs (Decidable (request.ip = ip → _))
  | .connect request => inferInstanceAs (Decidable (request.remoteAddress = ip → _))
  | .tick _ | .increment _ => isTrue trivial

end ThrottleServer

section Counting

/-- No counter is without its expiry. -/
def Counters.Expiring (r : Counters) : Prop :=
  ∀ key c, r.stored key = some c → 0 < c.value ∧ ∃ expires, c.expiresAt = some expires

namespace Counters

variable {r : Counters} {key : JsString}

theorem find_set {c : RedisCounter} (h : c.expiresAt.all (r.now ≤ ·) = true) :
    (r.set key (some c)).find key = some c := by
  have hstored : (r.set key (some c)).stored key = some c := Function.update_self ..
  rw [find, hstored]
  exact if_pos h

theorem throttleIncrement_of_find {value expires ttlMs : ℕ}
    (h : r.stored key = some ⟨value, some expires⟩) (hvalue : 0 < value)
    (hlive : r.now ≤ expires) : r.throttleIncrement key ttlMs =
      (r.set key (some ⟨value + 1, some expires⟩), value + 1, (expires : ℤ) - r.now) := by
  have hfind : r.find key = some ⟨value, some expires⟩ := by
    simp [find, h, hlive]
  have hne : value + 1 ≠ 1 := by omega
  have hset := @find_set r key ⟨value + 1, some expires⟩ (by simpa using hlive)
  simp only [throttleIncrement, incr, hfind, if_neg hne, pttl, hset]
  rfl

theorem throttleIncrement_of_expired {ttlMs : ℕ} (h : r.find key = none) (httl : 0 < ttlMs) :
    r.throttleIncrement key ttlMs =
      (r.set key (some ⟨1, some (r.now + ttlMs)⟩), 1, (ttlMs : ℤ)) := by
  have hset := @find_set r key ⟨1, none⟩ rfl
  have hend := @find_set r key ⟨1, some (r.now + ttlMs)⟩ (by simp)
  simp only [throttleIncrement, incr, h, if_true, pexpire, hset, if_neg httl.ne', pttl]
  simp only [set, Function.update_idem] at hend ⊢
  rw [hend]
  simp

end Counters

variable {s : ThrottleServer}

/-- The script counts as a counter of a fixed window does. -/
theorem throttleIncrement_eq (hexpiring : s.redis.Expiring) {key : JsString} {ttlMs : ℕ}
    (httl : 0 < ttlMs) {c : Counter ℕ}
    (hc : count s.redis.now (s.redis.now + ttlMs) (s.windows key) = c) :
    s.redis.throttleIncrement key ttlMs =
      (s.redis.set key (some ⟨c.value, some c.expires⟩), c.value, (c.expires : ℤ) - s.redis.now) ∧
        c.opened = (if c.value = 1 then s.redis.now else s.opened key) ∧ 0 < c.value ∧
          s.redis.now ≤ c.expires := by
  cases hstored : s.redis.stored key with
  | none =>
    have hwindow : s.windows key = none := by simp [ThrottleServer.windows, hstored]
    rw [hwindow, count] at hc
    subst hc
    rw [Counters.throttleIncrement_of_expired (by simp [Counters.find, hstored]) httl]
    simp
  | some stored =>
    obtain ⟨hvalue, expires, hexpires⟩ := hexpiring key stored hstored
    obtain ⟨value, _⟩ := stored
    subst hexpires
    have hwindow : s.windows key = some ⟨value, s.opened key, expires⟩ := by
      simp [ThrottleServer.windows, hstored]
    by_cases hlive : s.redis.now ≤ expires
    · rw [hwindow, count, if_pos hlive] at hc
      subst hc
      rw [Counters.throttleIncrement_of_find hstored hvalue hlive]
      have hne : value ≠ 0 := hvalue.ne'
      simp [hlive, hne]
    · rw [hwindow, count, if_neg hlive] at hc
      subst hc
      rw [Counters.throttleIncrement_of_expired (by simp [Counters.find, hstored, hlive]) httl]
      simp

theorem hit_spec (hexpiring : s.redis.Expiring) {key : JsString} {ttlMs : ℕ} (httl : 0 < ttlMs)
    {c : Counter ℕ} (hc : count s.redis.now (s.redis.now + ttlMs) (s.windows key) = c) :
    ∃ t, s.hit key ttlMs = (t, c.hit key s.redis.now, (c.expires : ℤ) - s.redis.now) ∧
      t.redis.now = s.redis.now ∧ t.redis.Expiring ∧
        t.windows = Function.update s.windows key (some c) ∧
          t.requests = s.requests ∧ t.connections = s.connections := by
  obtain ⟨hscript, hopened, hpos, hle⟩ := throttleIncrement_eq hexpiring httl hc
  refine ⟨{ s with
    redis := s.redis.set key (some ⟨c.value, some c.expires⟩)
    opened := Function.update s.opened key c.opened }, ?_, rfl, ?_, ?_, rfl, rfl⟩
  · have hend : s.redis.now + ((c.expires : ℤ) - s.redis.now).toNat = c.expires := by omega
    simp only [ThrottleServer.hit, hscript, ← hopened, hend, Counter.hit]
  · intro key' c' hc'
    simp only [Counters.set] at hc'
    rcases Tables.update_eq_some.mp hc' with ⟨_, hnew⟩ | ⟨_, hold⟩
    · cases hnew
      exact ⟨hpos, _, rfl⟩
    · exact hexpiring key' c' hold
  · funext key'
    by_cases hkey : key' = key
    · subst hkey
      simp [ThrottleServer.windows, Counters.set]
    · simp [ThrottleServer.windows, Counters.set, hkey]

end Counting

section Runs

variable {tracker : HttpRequest → JsString}
  {superGenerateKey : ThrottledRoute → JsString → ThrottlerName → JsString}
  {wsConnectionRateLimit : ℕ} {s t : ThrottleServer}

structure GuardedRequest.Sound (tracker : HttpRequest → JsString)
    (superGenerateKey : ThrottledRoute → JsString → ThrottlerName → JsString)
    (g : GuardedRequest) : Prop where
  key : ∀ c ∈ g.counted, c.2.key = throttleKey superGenerateKey tracker g.request c.1
  within : g.retryAfter = none → ∀ c ∈ g.counted, c.2.number ≤ c.1.limit
  all : g.retryAfter = none → g.counted.map Prod.fst ++ g.remaining = g.request.route.throttlers

structure ConnectionAttempt.Sound (wsConnectionRateLimit : ℕ) (c : ConnectionAttempt) : Prop where
  key : c.hit.key = js "ws:conn:rate:" ++ extractIp c.request
  within : c.limited = false → c.hit.number ≤ wsConnectionRateLimit

structure ThrottleServer.Inv (tracker : HttpRequest → JsString)
    (superGenerateKey : ThrottledRoute → JsString → ThrottlerName → JsString)
    (wsConnectionRateLimit : ℕ) (s : ThrottleServer) : Prop where
  expiring : s.redis.Expiring
  accounts : Accounts s.redis.now s.windows s.hits
  requests : ∀ g ∈ s.requests, g.Sound tracker superGenerateKey
  connections : ∀ c ∈ s.connections, c.Sound wsConnectionRateLimit

theorem flatMap_set_perm {α β : Type*} {f : α → List β} {l : List α} {i : ℕ} {a b : α} {x : β}
    (h : l[i]? = some a) (hf : f b = f a ++ [x]) :
    ((l.set i b).flatMap f).Perm (x :: l.flatMap f) := by
  induction l generalizing i with
  | nil => cases h
  | cons y l ih =>
    cases i with
    | zero =>
      obtain rfl : y = a := Option.some.inj h
      rw [List.set_cons_zero, List.flatMap_cons, List.flatMap_cons, hf, List.append_assoc]
      exact List.perm_middle
    | succ i =>
      rw [List.set_cons_succ, List.flatMap_cons, List.flatMap_cons]
      exact ((ih h).append_left (f y)).trans List.perm_middle

theorem handleRequest_cases (hexpiring : s.redis.Expiring) (g : GuardedRequest)
    (throttler : Throttler) (rest : List Throttler) {key : JsString}
    (hkey : throttleKey superGenerateKey tracker g.request throttler = key) {c : Counter ℕ}
    (hc : count s.redis.now (s.redis.now + throttler.ttl) (s.windows key) = c) :
    ∃ t g', s.handleRequest tracker superGenerateKey g throttler rest = (t, g') ∧
      t.redis.now = s.redis.now ∧ t.redis.Expiring ∧
        t.windows = Function.update s.windows key (some c) ∧
          t.requests = s.requests ∧ t.connections = s.connections ∧ g'.request = g.request ∧
            g'.counted = g.counted ++ [(throttler, c.hit key s.redis.now)] ∧
              (g'.retryAfter = none → g.retryAfter = none ∧ c.value ≤ throttler.limit ∧
                g'.remaining = rest) := by
  obtain ⟨t, hhit, hnow, hexp, hwindows, hrequests, hconnections⟩ :=
    hit_spec hexpiring throttler.ttl_pos hc
  unfold ThrottleServer.handleRequest
  simp only [hkey, hhit, storageRecord, Counter.hit, decide_eq_true_eq]
  by_cases hblocked : throttler.limit < c.value
  · rw [if_pos hblocked]
    exact ⟨_, _, rfl, hnow, hexp, hwindows, hrequests, hconnections, rfl, rfl,
      fun h => by cases h⟩
  · rw [if_neg hblocked]
    exact ⟨_, _, rfl, hnow, hexp, hwindows, hrequests, hconnections, rfl, rfl,
      fun h => ⟨h, not_lt.mp hblocked, rfl⟩⟩

theorem ThrottleServer.Inv.initial (now : ℕ) :
    (ThrottleServer.initial now).Inv tracker superGenerateKey wsConnectionRateLimit where
  expiring _ _ h := by cases h
  accounts := .nil now
  requests _ h := by cases h
  connections _ h := by cases h

/-- A throttler that counts a request and lets it on, or refuses it, keeps it sound. -/
theorem GuardedRequest.Sound.counted {g g' : GuardedRequest}
    (hsound : g.Sound tracker superGenerateKey) {throttler : Throttler} {rest : List Throttler}
    (hrest : g.remaining = throttler :: rest) (hrequest : g'.request = g.request)
    {h : Hit JsString ℕ} (hkey : h.key = throttleKey superGenerateKey tracker g.request throttler)
    (hcounted : g'.counted = g.counted ++ [(throttler, h)])
    (hpass : g'.retryAfter = none →
      g.retryAfter = none ∧ h.number ≤ throttler.limit ∧ g'.remaining = rest) :
    g'.Sound tracker superGenerateKey := by
  refine ⟨?_, ?_, ?_⟩
  · rw [hcounted, hrequest]
    exact List.forall_mem_append.mpr ⟨hsound.key, List.forall_mem_singleton.mpr hkey⟩
  · intro hnone
    obtain ⟨hold, hlimit, _⟩ := hpass hnone
    rw [hcounted]
    exact List.forall_mem_append.mpr
      ⟨hsound.within hold, List.forall_mem_singleton.mpr hlimit⟩
  · intro hnone
    obtain ⟨hold, _, hremaining⟩ := hpass hnone
    rw [hcounted, hremaining, hrequest, ← hsound.all hold, hrest, List.map_append,
      List.append_assoc]
    rfl

theorem ThrottleServer.Inv.increment
    (hinv : s.Inv tracker superGenerateKey wsConnectionRateLimit) {i : ℕ} {g : GuardedRequest}
    (hg : s.requests[i]? = some g) {throttler : Throttler} {rest : List Throttler}
    (hrest : g.remaining = throttler :: rest) :
    let r := s.handleRequest tracker superGenerateKey g throttler rest
    ThrottleServer.Inv tracker superGenerateKey wsConnectionRateLimit
      { r.1 with requests := r.1.requests.set i r.2 } := by
  obtain ⟨t, g', heq, hnow, hexp, hwindows, hrequests, hconnections, hrequest, hcounted, hpass⟩ :=
    handleRequest_cases hinv.expiring g throttler rest
      (rfl : throttleKey superGenerateKey tracker g.request throttler = _) rfl
  rw [heq]
  refine ⟨hexp, ?_, ?_, ?_⟩
  · have hcount := hinv.accounts.counted
      (throttleKey superGenerateKey tracker g.request throttler)
      (Nat.le_add_right s.redis.now throttler.ttl)
    have hperm := flatMap_set_perm (f := fun g => g.counted.map Prod.snd) hg
      (b := g') (by rw [hcounted, List.map_append]; rfl)
    simp only [ThrottleServer.hits, hrequests, hconnections]
    change Accounts t.redis.now t.windows _
    rw [hnow, hwindows]
    exact hcount.perm (hperm.symm.append_right _)
  · intro g'' hg''
    simp only [hrequests] at hg''
    rcases List.mem_or_eq_of_mem_set hg'' with hold | rfl
    · exact hinv.requests g'' hold
    · exact (hinv.requests g (List.mem_of_getElem? hg)).counted hrest hrequest rfl hcounted hpass
  · simp only [hconnections]
    exact hinv.connections

theorem ThrottleServer.Inv.connect (hinv : s.Inv tracker superGenerateKey wsConnectionRateLimit)
    (request : IncomingMessage) : (s.handleConnection wsConnectionRateLimit request).Inv tracker
      superGenerateKey wsConnectionRateLimit := by
  obtain ⟨t, hhit, hnow, hexp, hwindows, hrequests, hconnections⟩ :=
    @hit_spec s hinv.expiring (js "ws:conn:rate:" ++ extractIp request) 60000 (by decide) _ rfl
  unfold ThrottleServer.handleConnection
  simp only [hhit, Counter.hit]
  refine ⟨hexp, ?_, ?_, ?_⟩
  · have hcount := hinv.accounts.counted (js "ws:conn:rate:" ++ extractIp request)
      (Nat.le_add_right s.redis.now 60000)
    simp only [ThrottleServer.hits, hrequests, hconnections, List.map_append, ← List.append_assoc]
    change Accounts t.redis.now t.windows _
    rw [hnow, hwindows]
    exact hcount.perm (List.perm_append_singleton _ _).symm
  · rw [hrequests]
    exact hinv.requests
  · intro c hc
    rw [hconnections, List.mem_append, List.mem_singleton] at hc
    rcases hc with hc | rfl
    · exact hinv.connections c hc
    · exact ⟨rfl, fun hlimited => not_lt.mp (of_decide_eq_false hlimited)⟩

/-- What an increment is: the next throttler of a request counts it. -/
theorem step_increment {i : ℕ}
    (hstep : s.step tracker superGenerateKey wsConnectionRateLimit (.increment i) = some t) :
    ∃ g throttler rest, s.requests[i]? = some g ∧ g.remaining = throttler :: rest ∧
      t = (let r := s.handleRequest tracker superGenerateKey g throttler rest
        { r.1 with requests := r.1.requests.set i r.2 }) := by
  unfold ThrottleServer.step at hstep
  cases hg : s.requests[i]? with
  | none => simp [hg] at hstep
  | some g =>
    cases hrest : g.remaining with
    | nil => simp [hg, hrest] at hstep
    | cons throttler rest =>
      simp only [hg, hrest, Option.some.injEq] at hstep
      exact ⟨g, throttler, rest, rfl, hrest, hstep.symm⟩

theorem ThrottleServer.Inv.step (hinv : s.Inv tracker superGenerateKey wsConnectionRateLimit)
    {action : ThrottleAction}
    (hstep : s.step tracker superGenerateKey wsConnectionRateLimit action = some t) :
    t.Inv tracker superGenerateKey wsConnectionRateLimit := by
  cases action with
  | tick ms =>
    cases hstep
    exact ⟨hinv.expiring, hinv.accounts.later (Nat.le_add_right _ _), hinv.requests,
      hinv.connections⟩
  | request request =>
    cases hstep
    refine ⟨hinv.expiring, ?_, ?_, hinv.connections⟩
    · have hhits : ThrottleServer.hits { s with
          requests := s.requests ++ [⟨request, [], request.route.throttlers, none⟩] } = s.hits := by
        simp [ThrottleServer.hits]
      rw [hhits]
      exact hinv.accounts
    · intro g hg
      rcases List.mem_append.mp hg with hg | hg
      · exact hinv.requests g hg
      · obtain rfl := List.mem_singleton.mp hg
        exact ⟨fun _ hc => absurd hc List.not_mem_nil,
          fun _ _ hc => absurd hc List.not_mem_nil, fun _ => rfl⟩
  | increment i =>
    obtain ⟨g, throttler, rest, hg, hrest, rfl⟩ := step_increment hstep
    exact hinv.increment hg hrest
  | connect request =>
    cases hstep
    exact hinv.connect request

theorem ThrottleServer.Inv.connectionBound
    (hinv : s.Inv tracker superGenerateKey wsConnectionRateLimit) {ip forwarded : Option JsString}
    (hnames : ∀ c ∈ s.connections, c.request.remoteAddress = ip →
      forwardedIp c.request = forwarded) : s.ConnectionBound wsConnectionRateLimit ip := by
  intro c hc hip
  have hkey : ∀ c' ∈ s.connections, c'.request.remoteAddress = ip →
      c'.hit.key = js "ws:conn:rate:" ++ forwarded.getD (ip.getD (js "unknown")) := by
    intro c' hc' hip'
    rw [(hinv.connections c' hc').key, extractIp, hnames c' hc' hip', hip']
  have hhit : c.hit ∈ s.hits := List.mem_append_right _ (List.mem_map_of_mem hc)
  rw [← List.length_map ConnectionAttempt.hit]
  refine hinv.accounts.length_le hhit ?_ ?_
  · refine List.Sublist.subperm ?_
    exact (List.filter_sublist.map _).trans (List.sublist_append_right _ _)
  · intro h hh
    obtain ⟨c', hc', rfl⟩ := List.mem_map.mp hh
    obtain ⟨hmem, hpassed⟩ := List.mem_filter.mp hc'
    obtain ⟨hip', hlimited, hcovers⟩ := of_decide_eq_true hpassed
    exact ⟨(hkey c' hmem hip').trans (hkey c hc hip).symm, hcovers,
      (hinv.connections c' hmem).within hlimited⟩

theorem GuardedRequest.Sound.hitOf_isSome {g : GuardedRequest}
    (hsound : g.Sound tracker superGenerateKey) (hreaches : g.reachesHandler = true)
    {throttler : Throttler} (hthrottler : throttler ∈ g.request.route.throttlers) :
    (g.hitOf throttler).isSome = true := by
  obtain ⟨hremaining, hretry⟩ := Bool.and_eq_true_iff.mp hreaches
  have hall := hsound.all (Option.isNone_iff_eq_none.mp hretry)
  rw [List.isEmpty_iff.mp hremaining, List.append_nil] at hall
  rw [← hall] at hthrottler
  obtain ⟨c, hc, rfl⟩ := List.mem_map.mp hthrottler
  rw [hitOf, Option.isSome_map, List.find?_isSome]
  exact ⟨c, hc, decide_eq_true rfl⟩

theorem GuardedRequest.mem_counted_of_hitOf {g : GuardedRequest} {throttler : Throttler}
    {h : Hit JsString ℕ} (hh : g.hitOf throttler = some h) : (throttler, h) ∈ g.counted := by
  obtain ⟨⟨counting, _⟩, hfind, rfl⟩ := Option.map_eq_some_iff.mp hh
  have hcounting := List.find?_some hfind
  obtain rfl : counting = throttler := of_decide_eq_true hcounting
  exact List.mem_of_find?_eq_some hfind

theorem filterMap_sublist_flatMap {α β : Type*} {f : α → Option β} {g : α → List β}
    (h : ∀ a b, f a = some b → b ∈ g a) (l : List α) : (l.filterMap f).Sublist (l.flatMap g) := by
  induction l with
  | nil => exact .slnil
  | cons a l ih =>
    rw [List.flatMap_cons]
    cases hf : f a with
    | none =>
      rw [List.filterMap_cons_none hf]
      exact ih.trans (List.sublist_append_right _ _)
    | some b =>
      rw [List.filterMap_cons_some hf]
      exact (List.singleton_sublist.mpr (h a b hf)).append ih

theorem ThrottleServer.Inv.handlerBound
    (hinv : s.Inv tracker superGenerateKey wsConnectionRateLimit) {ip : Option JsString}
    (hnames : ∀ g ∈ s.requests, g.request.ip = ip → ∀ g' ∈ s.requests, g'.request.ip = ip →
      tracker g'.request = tracker g.request) :
    s.HandlerBound ip := by
  intro g hg hip throttler hthrottler hname h hh
  have hkey : ∀ g' ∈ s.requests, g'.request.ip = ip → g'.request.route = g.request.route →
      throttleKey superGenerateKey tracker g'.request throttler =
        throttleKey superGenerateKey tracker g.request throttler := by
    intro g' hg' hip' hroute
    simp only [throttleKey, generateKey, hnames g hg hip g' hg' hip', hroute, hname]
    rfl
  have hcounted := GuardedRequest.mem_counted_of_hitOf hh
  have hhit : h ∈ s.hits := List.mem_append_left _
    (List.mem_flatMap.mpr ⟨g, hg, List.mem_map.mpr ⟨_, hcounted, rfl⟩⟩)
  have hmem : ∀ g' ∈ (s.handled ip g.request.route).filter fun g' =>
      (g'.hitOf throttler).all fun h' => h.Covers h'.time, g' ∈ s.requests ∧
        g'.request.ip = ip ∧ g'.request.route = g.request.route ∧ g'.reachesHandler = true ∧
          (g'.hitOf throttler).all (fun h' => h.Covers h'.time) = true := by
    intro g' hg'
    obtain ⟨hhandled, hcovers⟩ := List.mem_filter.mp hg'
    obtain ⟨hmem, hpassed⟩ := List.mem_filter.mp hhandled
    obtain ⟨hip', hroute, hreaches⟩ := of_decide_eq_true hpassed
    exact ⟨hmem, hip', hroute, hreaches, hcovers⟩
  rw [← List.filterMap_length_eq_length (f := fun g' => g'.hitOf throttler) |>.mpr ?_]
  · refine hinv.accounts.length_le hhit ?_ ?_
    · refine List.Sublist.subperm ?_
      refine List.Sublist.trans ?_ (List.sublist_append_left _ _)
      refine (((List.filter_sublist).trans List.filter_sublist).filterMap _).trans ?_
      exact filterMap_sublist_flatMap (fun g' h' hh' => List.mem_map.mpr
        ⟨_, GuardedRequest.mem_counted_of_hitOf hh', rfl⟩) _
    · intro h' hh'
      obtain ⟨g', hg', hhit'⟩ := List.mem_filterMap.mp hh'
      obtain ⟨hrequest, hip', hroute, hreaches, hcovers⟩ := hmem g' hg'
      have hsound := hinv.requests g' hrequest
      have hcounted' := GuardedRequest.mem_counted_of_hitOf hhit'
      rw [hhit'] at hcovers
      refine ⟨?_, of_decide_eq_true hcovers, ?_⟩
      · rw [hsound.key _ hcounted', (hinv.requests g hg).key _ hcounted]
        exact hkey g' hrequest hip' hroute
      · obtain ⟨_, hretry⟩ := Bool.and_eq_true_iff.mp hreaches
        exact hsound.within (Option.isNone_iff_eq_none.mp hretry) _ hcounted'
  · intro g' hg'
    obtain ⟨hrequest, _, hroute, hreaches, _⟩ := hmem g' hg'
    exact (hinv.requests g' hrequest).hitOf_isSome hreaches (hroute ▸ hthrottler)

/-- Every request and every connection in a state names the keys that its client names. -/
def ThrottleServer.Named (decode : JsString → Option Json) (ip userId forwarded : Option JsString)
    (s : ThrottleServer) : Prop :=
  (∀ g ∈ s.requests, g.request.ip = ip → claimedUserId decode g.request = userId) ∧
    ∀ c ∈ s.connections, c.request.remoteAddress = ip → forwardedIp c.request = forwarded

theorem requests_handleRequest (s : ThrottleServer) (g : GuardedRequest) (throttler : Throttler)
    (rest : List Throttler) :
    let r := s.handleRequest tracker superGenerateKey g throttler rest
    r.1.requests = s.requests ∧ r.1.connections = s.connections ∧ r.2.request = g.request := by
  unfold ThrottleServer.handleRequest
  dsimp only
  split
  · exact ⟨rfl, rfl, rfl⟩
  · exact ⟨rfl, rfl, rfl⟩

theorem ThrottleServer.Named.step {decode : JsString → Option Json}
    {ip userId forwarded : Option JsString}
    (hnamed : s.Named decode ip userId forwarded) {action : ThrottleAction}
    (hnames : NamesKeys decode ip userId forwarded action)
    (hstep : s.step tracker superGenerateKey wsConnectionRateLimit action = some t) :
    t.Named decode ip userId forwarded := by
  obtain ⟨hrequests, hconnections⟩ := hnamed
  cases action with
  | tick ms =>
    cases hstep
    exact ⟨hrequests, hconnections⟩
  | request request =>
    cases hstep
    refine ⟨fun g hg => ?_, hconnections⟩
    rcases List.mem_append.mp hg with hg | hg
    · exact hrequests g hg
    · obtain rfl := List.mem_singleton.mp hg
      exact hnames
  | increment i =>
    obtain ⟨g, throttler, rest, hg, hrest, rfl⟩ := step_increment hstep
    obtain ⟨hkeep, hkeep', hrequest⟩ :=
      @requests_handleRequest tracker superGenerateKey s g throttler rest
    refine ⟨fun g' hg' => ?_, ?_⟩
    · simp only [hkeep] at hg'
      rcases List.mem_or_eq_of_mem_set hg' with hold | rfl
      · exact hrequests g' hold
      · rw [hrequest]
        exact hrequests g (List.mem_of_getElem? hg)
    · simp only [hkeep']
      exact hconnections
  | connect request =>
    cases hstep
    refine ⟨hrequests, fun c hc => ?_⟩
    rcases List.mem_append.mp hc with hc | hc
    · exact hconnections c hc
    · obtain rfl := List.mem_singleton.mp hc
      exact hnames

/-- In every run in which the headers of a client always name the same keys, its requests and its
connections stay within the limits. -/
theorem rateBound_of_namesKeys {decode : JsString → Option Json}
    {ip userId forwarded : Option JsString}
    (hreach : Runs.Reach
      (ThrottleServer.step (getTracker decode) superGenerateKey wsConnectionRateLimit)
      ThrottleServer.Initial
      (fun _ action => ThrottleServer.NamesKeys decode ip userId forwarded action) s) :
    s.HandlerBound ip ∧ s.ConnectionBound wsConnectionRateLimit ip := by
  let Kept (s : ThrottleServer) :=
    s.Inv (getTracker decode) superGenerateKey wsConnectionRateLimit ∧
      s.Named decode ip userId forwarded
  have hkept : Kept s := by
    refine hreach.invariant ?_ ?_
    · rintro s ⟨now, rfl⟩
      exact ⟨.initial now, fun _ h => absurd h List.not_mem_nil,
        fun _ h => absurd h List.not_mem_nil⟩
    · intro s action t hs hnames hstep
      exact ⟨hs.1.step hstep, hs.2.step hnames hstep⟩
  obtain ⟨hinv, hrequests, hconnections⟩ := hkept
  refine ⟨hinv.handlerBound ?_, hinv.connectionBound hconnections⟩
  intro g hg hip g' hg' hip'
  rw [getTracker, getTracker, hrequests g hg hip, hrequests g' hg' hip', hip, hip']

end Runs

section Clients

def unsignedTokens : List (JsString × JsString) :=
  [(js "eyJhbGciOiJub25lIn0.eyJ1c2VySWQiOiIxIn0.", js "1"),
    (js "eyJhbGciOiJub25lIn0.eyJ1c2VySWQiOiIyIn0.", js "2"),
    (js "eyJhbGciOiJub25lIn0.eyJ1c2VySWQiOiIzIn0.", js "3"),
    (js "eyJhbGciOiJub25lIn0.eyJ1c2VySWQiOiI0In0.", js "4")]

def decodeUnsigned (token : JsString) : Option Json :=
  (unsignedTokens.find? fun t => t.1 = token).map fun t => .obj [(js "userId", .str t.2)]

def unsignedTracker (request : HttpRequest) : JsString :=
  match request.authorization.bind fun authHeader =>
    if occursAt authHeader (js "Bearer ") 0 then
      (unsignedTokens.find? fun t => t.1 = authHeader.drop 7).map Prod.snd
    else none with
  | some userId => js "user:" ++ userId
  | none => request.ip.getD (js "undefined")

theorem getTracker_decodeUnsigned : getTracker decodeUnsigned = unsignedTracker := by
  funext request
  have hclaimed : claimedUserId decodeUnsigned request =
      request.authorization.bind fun authHeader =>
        if occursAt authHeader (js "Bearer ") 0 then
          (unsignedTokens.find? fun t => t.1 = authHeader.drop 7).map Prod.snd
        else none := by
    unfold claimedUserId
    refine congrArg _ (funext fun authHeader => ?_)
    split
    · unfold decodeUnsigned
      cases hfind : unsignedTokens.find? fun t => t.1 = authHeader.drop 7 with
      | none => rfl
      | some t =>
        have hid : Json.isTruthy (.str t.2) = true :=
          (by decide : ∀ t ∈ unsignedTokens, Json.isTruthy (.str t.2) = true) t
            (List.mem_of_find?_eq_some hfind)
        simp [Json.get, Option.filter, hid, Json.toText]
    · rfl
  rw [getTracker, hclaimed, unsignedTracker]

/-- The text of a key before it is hashed. -/
def keyText (route : ThrottledRoute) (suffix : JsString) (throttlerName : ThrottlerName) :
    JsString :=
  route.controller ++ js "-" ++ route.handler ++ js "-" ++
    (match throttlerName with
      | .default => js "default"
      | .auth => js "auth"
      | .aiChat => js "ai-chat") ++ js "-" ++ suffix

def forgotPassword : ThrottledRoute where
  controller := js "AuthController"
  handler := js "forgotPassword"
  throttlers := [⟨.default, 100, 60000, by decide⟩, ⟨.aiChat, 10, 60000, by decide⟩,
    ⟨.auth, 3, 3600000, by decide⟩]

def clientIp : Option JsString := some (js "203.0.113.7")

def ask (i : ℕ) (authorization : Option JsString) : List ThrottleAction :=
  [.request ⟨forgotPassword, clientIp, authorization, none⟩, .increment i, .increment i,
    .increment i]

def connectAs (forwarded : Option HeaderValue) : ThrottleAction :=
  .connect ⟨clientIp, forwarded⟩

def withoutHeaders : List ThrottleAction :=
  ask 0 none ++ [.tick 10] ++ ask 1 none ++ ask 2 none ++ ask 3 none ++
    [connectAs none, connectAs none]

theorem rateBound_withoutHeaders :
    ∃ s, Runs.exec (ThrottleServer.step (getTracker decodeUnsigned) keyText 1) (.initial 0)
        withoutHeaders = some s ∧ s.HandlerBound clientIp ∧ s.ConnectionBound 1 clientIp := by
  obtain ⟨s, hs⟩ : ∃ s, Runs.exec (ThrottleServer.step (getTracker decodeUnsigned) keyText 1)
      (.initial 0) withoutHeaders = some s := Option.isSome_iff_exists.mp (by decide +kernel)
  have hfollows : Runs.Follows (ThrottleServer.step (getTracker decodeUnsigned) keyText 1)
      (fun _ action => ThrottleServer.NamesKeys decodeUnsigned clientIp none none action)
        (.initial 0) withoutHeaders := by decide +kernel
  exact ⟨s, hs, rateBound_of_namesKeys (Runs.Reach.exec (.start ⟨0, rfl⟩) hfollows hs)⟩

/-- Each request with another token, and each connection with another address in the header. -/
def forgedHeaders : List ThrottleAction :=
  (unsignedTokens.mapIdx fun i token => ask i (some (js "Bearer " ++ token.1))).flatten ++
    [connectAs (some (.string (js "198.51.100.1"))), connectAs (some (.string (js "198.51.100.2")))]

theorem rateBound_fails :
    ∃ s, Runs.exec (ThrottleServer.step (getTracker decodeUnsigned) keyText 1) (.initial 0)
        forgedHeaders = some s ∧ ¬ s.HandlerBound clientIp ∧ ¬ s.ConnectionBound 1 clientIp := by
  rw [getTracker_decodeUnsigned]
  obtain ⟨s, hs, hfails⟩ := (Option.any_eq_true _ _).mp (show (Runs.exec
    (ThrottleServer.step unsignedTracker keyText 1) (.initial 0) forgedHeaders).any (fun s =>
      !decide (s.HandlerBound clientIp) && !decide (s.ConnectionBound 1 clientIp)) = true by
        decide +kernel)
  simp only [Bool.and_eq_true, Bool.not_eq_true', decide_eq_false_iff_not] at hfails
  exact ⟨s, hs, hfails⟩

end Clients

end Meridian
