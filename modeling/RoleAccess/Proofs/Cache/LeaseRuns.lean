import RoleAccess.Proofs.Cache.LeaseSteps

/-!
Runs of the leases. Whatever is asked of them while time goes by, they answer as a plain map of
leases may that has no queue (`Expiry.run_conforms`). The rules of the plain map are given as a
relation (`LeaseBook.Step`), since they leave open in which order keys with the same deadline
expire.
-/

set_option autoImplicit false
set_option relaxedAutoImplicit false

namespace RoleAccess

/-- What can be asked of leases, and the passing of time. -/
inductive LeaseRequest where
  | set (key : String) (ttl : Option Nat) (sliding : Bool)
  | touch (key : String)
  | updateTtl (key : String) (ttl : Nat)
  | remove (key : String)
  | clear
  | cleanup (limit : Option Nat)
  | takeExpired (limit : Option Nat)
  | advance (delay : Nat)
  | isTracked (key : String)
  | isExpired (key : String)
  | remaining (key : String)
  | size

inductive LeaseReply where
  | done
  | told (yes : Bool)
  | left (remaining : Remaining)
  | count (n : Nat)
  | gone (expired : List Expiration)

/-! ### The plain map -/

/-- What holds of a map of leases throughout a run. -/
structure LeaseRules where
  defaultTtl : Option Nat
  /-- How many keys go at most when no number is given. -/
  batch : Nat
  listeners : Nat

/-- A plain map of leases at some time, and what the listeners have been told so far. -/
structure LeaseBook where
  leases : Leases := fun _ ↦ none
  now : Nat
  notices : List (Nat × Expiration) := []

namespace LeaseBook

/-- Gives a key this lease, or none. -/
def put (b : LeaseBook) (key : String) (lease : Option Lease) : LeaseBook :=
  { b with leases := Function.update b.leases key lease }

/-- What a plain map may reply to a request, and what it is afterwards. -/
inductive Step (rules : LeaseRules) : LeaseBook → LeaseRequest → LeaseReply → LeaseBook → Prop
  | set (b : LeaseBook) (key : String) (ttl : Option Nat) (sliding : Bool) :
    Step rules b (.set key ttl sliding) .done
      (b.put key (some (.granted b.now (ttl.or rules.defaultTtl) sliding)))
  | touchLost (b : LeaseBook) (key : String) (h : ∀ lease, ¬b.leases.Alive b.now key lease) :
    Step rules b (.touch key) (.told false) b
  | touchAlive (b : LeaseBook) (key : String) (lease : Lease)
    (h : b.leases.Alive b.now key lease) :
    Step rules b (.touch key) (.told true) (b.put key (some (lease.renewed b.now)))
  | updateLost (b : LeaseBook) (key : String) (ttl : Nat)
    (h : ∀ lease, ¬b.leases.Alive b.now key lease) :
    Step rules b (.updateTtl key ttl) (.told false) b
  | updateAlive (b : LeaseBook) (key : String) (ttl : Nat) (lease : Lease)
    (h : b.leases.Alive b.now key lease) :
    Step rules b (.updateTtl key ttl) (.told true)
      (b.put key (some { lease with deadline := Lease.dueAt b.now ttl, ttl := some ttl }))
  | remove (b : LeaseBook) (key : String) :
    Step rules b (.remove key) (.told (b.leases key).isSome) (b.put key none)
  | clear (b : LeaseBook) : Step rules b .clear .done { b with leases := fun _ ↦ none }
  | takeExpired (b : LeaseBook) (limit : Option Nat) (gone : List Expiration) (left : Leases)
    (h : b.leases.Took b.now (limit.getD rules.batch) gone left) :
    Step rules b (.takeExpired limit) (.gone gone) { b with leases := left }
  /-- Only a cleanup tells the listeners, every one of each key that went. -/
  | cleanup (b : LeaseBook) (limit : Option Nat) (gone : List Expiration) (left : Leases)
    (h : b.leases.Took b.now (limit.getD rules.batch) gone left) :
    Step rules b (.cleanup limit) (.count gone.length) { b with
      leases := left
      notices := b.notices ++
        gone.flatMap fun x ↦ (List.range rules.listeners).map fun i ↦ (i, x) }
  | advance (b : LeaseBook) (delay : Nat) :
    Step rules b (.advance delay) .done { b with now := b.now + delay }
  | isTracked (b : LeaseBook) (key : String) :
    Step rules b (.isTracked key) (.told (b.leases key).isSome) b
  | expiredLost (b : LeaseBook) (key : String) (h : ∀ lease, ¬b.leases.Alive b.now key lease) :
    Step rules b (.isExpired key) (.told true) b
  | expiredAlive (b : LeaseBook) (key : String) (lease : Lease)
    (h : b.leases.Alive b.now key lease) : Step rules b (.isExpired key) (.told false) b
  | remainingLost (b : LeaseBook) (key : String) (h : ∀ lease, ¬b.leases.Alive b.now key lease) :
    Step rules b (.remaining key) (.left .notFound) b
  | remainingAlive (b : LeaseBook) (key : String) (lease : Lease)
    (h : b.leases.Alive b.now key lease) :
    Step rules b (.remaining key) (.left (match lease.deadline with
      | none => .never
      | some deadline => .expires (deadline - b.now))) b
  | size (b : LeaseBook) (n : Nat) (h : {key | (b.leases key).isSome}.encard = n) :
    Step rules b .size (.count n) b

/-- Step after step. -/
inductive Run (rules : LeaseRules) :
    LeaseBook → List LeaseRequest → List LeaseReply → LeaseBook → Prop
  | nil (b : LeaseBook) : Run rules b [] [] b
  | cons {b next last : LeaseBook} {q : LeaseRequest} {rest : List LeaseRequest}
    {reply : LeaseReply} {replies : List LeaseReply} (step : Step rules b q reply next)
    (run : Run rules next rest replies last) : Run rules b (q :: rest) (reply :: replies) last

end LeaseBook

/-! ### The leases with their queue -/

/-- Leases at some time. -/
structure ExpiryClock where
  expiry : Expiry
  now : Nat

namespace ExpiryClock

def answer (c : ExpiryClock) : LeaseRequest → LeaseReply × ExpiryClock
  | .set key ttl sliding => (.done, { c with expiry := c.expiry.set c.now key ttl sliding })
  | .touch key =>
    let (alive, expiry) := c.expiry.touch c.now key
    (.told alive, { c with expiry })
  | .updateTtl key ttl =>
    let (alive, expiry) := c.expiry.updateTtl c.now key ttl
    (.told alive, { c with expiry })
  | .remove key =>
    let (tracked, expiry) := c.expiry.remove key
    (.told tracked, { c with expiry })
  | .clear => (.done, { c with expiry := c.expiry.clear })
  | .cleanup limit =>
    let (count, expiry) := c.expiry.cleanup c.now limit
    (.count count, { c with expiry })
  | .takeExpired limit =>
    let (gone, expiry) := c.expiry.takeExpired c.now limit
    (.gone gone, { c with expiry })
  | .advance delay => (.done, { c with now := c.now + delay })
  | .isTracked key => (.told (c.expiry.isTracked key), c)
  | .isExpired key => (.told (c.expiry.isExpired c.now key), c)
  | .remaining key => (.left (c.expiry.remaining c.now key), c)
  | .size => (.count c.expiry.size, c)

/-- The replies to requests, one after the other, and the leases afterwards. -/
def run (c : ExpiryClock) : List LeaseRequest → List LeaseReply × ExpiryClock
  | [] => ([], c)
  | q :: rest =>
    let (reply, c) := c.answer q
    let (replies, c) := c.run rest
    (reply :: replies, c)

def rules (c : ExpiryClock) : LeaseRules :=
  ⟨c.expiry.defaultTtl, c.expiry.batch, c.expiry.listeners⟩

/-- The leases without their queue. -/
def book (c : ExpiryClock) : LeaseBook := ⟨c.expiry.plain, c.now, c.expiry.notices⟩

/-- A request that is answered as a plain map may answer it, and leaves the queue in order. -/
structure Conforms (c : ExpiryClock) (q : LeaseRequest) : Prop where
  step : c.book.Step c.rules q (c.answer q).1 (c.answer q).2.book
  sound : (c.answer q).2.expiry.Sound
  rules : (c.answer q).2.rules = c.rules

/-- Where nothing but the leases has changed, the rules and the notices are the same. -/
theorem of_became {c : ExpiryClock} {e : Expiry} {m : Leases} (h : c.expiry.Became e m) :
    book { c with expiry := e } = { c.book with leases := m } ∧
      rules { c with expiry := e } = c.rules := by
  obtain ⟨-, hplain, hrest⟩ := h
  have hnotices : e.notices = c.expiry.notices := by rw [hrest]
  have hrules : rules { c with expiry := e } = c.rules := by
    unfold rules
    dsimp only
    rw [hrest]
  refine ⟨?_, hrules⟩
  unfold book
  dsimp only
  rw [hplain, hnotices]

/-- A request that only changes leases. -/
theorem Conforms.of_became {c : ExpiryClock} {q : LeaseRequest} {m : Leases}
    (h : c.expiry.Became (c.answer q).2.expiry m) (hnow : (c.answer q).2.now = c.now)
    (hstep : c.book.Step c.rules q (c.answer q).1 { c.book with leases := m }) :
    c.Conforms q := by
  obtain ⟨hbook, hrules⟩ := ExpiryClock.of_became h
  rw [← hnow] at hbook hrules
  refine ⟨?_, h.sound, hrules⟩
  have hanswered : (c.answer q).2.book = { c.book with leases := m } := hbook
  rw [hanswered]
  exact hstep

/-- A request that changes nothing. -/
theorem Conforms.of_view {c : ExpiryClock} (h : c.expiry.Sound) {q : LeaseRequest}
    (hsame : (c.answer q).2 = c) (hstep : c.book.Step c.rules q (c.answer q).1 c.book) :
    c.Conforms q := by
  refine ⟨?_, ?_, ?_⟩
  · rw [hsame]
    exact hstep
  · rw [hsame]
    exact h
  · rw [hsame]

theorem alive_or_lost (c : ExpiryClock) (key : String) :
    (∃ lease, c.expiry.plain.Alive c.now key lease) ∨
      ∀ lease, ¬c.expiry.plain.Alive c.now key lease := by
  by_cases h : ∃ lease, c.expiry.plain.Alive c.now key lease
  · exact Or.inl h
  · exact Or.inr (not_exists.mp h)

/-- A request that changes the lease of a key that is alive, and otherwise tells that it is not. -/
theorem Conforms.of_told {c : ExpiryClock} (h : c.expiry.Sound) {q : LeaseRequest}
    {r : Bool × Expiry} (key : String)
    (hanswer : c.answer q = (.told r.1, { c with expiry := r.2 }))
    (hlost : (∀ lease, ¬c.expiry.plain.Alive c.now key lease) →
      r = (false, c.expiry) ∧ c.book.Step c.rules q (.told false) c.book)
    (halive : ∀ lease, c.expiry.plain.Alive c.now key lease →
      ∃ m, r.1 = true ∧ c.expiry.Became r.2 m ∧
        c.book.Step c.rules q (.told true) { c.book with leases := m }) :
    c.Conforms q := by
  rcases c.alive_or_lost key with ⟨lease, hlease⟩ | hnone
  · obtain ⟨m, htold, hbecame, hstep⟩ := halive lease hlease
    refine .of_became (by rw [hanswer]; exact hbecame) (by rw [hanswer]) ?_
    rw [hanswer, htold]
    exact hstep
  · obtain ⟨rfl, hstep⟩ := hlost hnone
    refine .of_view h (by rw [hanswer]) ?_
    rw [hanswer]
    exact hstep

theorem conforms_touch {c : ExpiryClock} (h : c.expiry.Sound) (key : String) :
    c.Conforms (.touch key) := by
  refine .of_told h (r := c.expiry.touch c.now key) key rfl (fun hlost ↦ ?_)
    fun lease halive ↦ ?_
  · exact ⟨Expiry.touch_of_lost hlost, .touchLost c.book key hlost⟩
  · obtain ⟨htold, hbecame⟩ := Expiry.became_touch h halive
    exact ⟨_, htold, hbecame, .touchAlive c.book key lease halive⟩

theorem conforms_updateTtl {c : ExpiryClock} (h : c.expiry.Sound) (key : String) (ttl : Nat) :
    c.Conforms (.updateTtl key ttl) := by
  refine .of_told h (r := c.expiry.updateTtl c.now key ttl) key rfl (fun hlost ↦ ?_)
    fun lease halive ↦ ?_
  · exact ⟨Expiry.updateTtl_of_lost hlost ttl, .updateLost c.book key ttl hlost⟩
  · obtain ⟨htold, hbecame⟩ := Expiry.became_updateTtl h halive ttl
    exact ⟨_, htold, hbecame, .updateAlive c.book key ttl lease halive⟩

theorem conforms_cleanup {c : ExpiryClock} (h : c.expiry.Sound) (limit : Option Nat) :
    c.Conforms (.cleanup limit) := by
  obtain ⟨htook, hbecame⟩ := Expiry.became_takeExpired h c.now limit
  obtain ⟨hbook, hrules⟩ := of_became hbecame
  refine ⟨?_, hbecame.sound, hrules⟩
  have hlisteners : (c.expiry.takeExpired c.now limit).2.listeners = c.expiry.listeners :=
    congrArg LeaseRules.listeners hrules
  have hnotices : (c.expiry.takeExpired c.now limit).2.notices = c.expiry.notices :=
    congrArg LeaseBook.notices hbook
  have hanswered : (c.answer (.cleanup limit)).2.book = { c.book with
      leases := (c.expiry.takeExpired c.now limit).2.plain
      notices := c.expiry.notices ++ (c.expiry.takeExpired c.now limit).1.flatMap fun x ↦
        (List.range c.expiry.listeners).map fun i ↦ (i, x) } := by
    rw [← hlisteners, ← hnotices]
    rfl
  rw [hanswered]
  exact .cleanup c.book limit _ _ htook

theorem conforms_isExpired {c : ExpiryClock} (h : c.expiry.Sound) (key : String) :
    c.Conforms (.isExpired key) := by
  refine .of_view h rfl ?_
  change LeaseBook.Step _ _ _ (.told (c.expiry.isExpired c.now key)) _
  rcases c.alive_or_lost key with ⟨lease, halive⟩ | hlost
  · rw [Expiry.isExpired_of_alive halive]
    exact .expiredAlive c.book key lease halive
  · rw [Expiry.isExpired_of_lost hlost]
    exact .expiredLost c.book key hlost

theorem conforms_remaining {c : ExpiryClock} (h : c.expiry.Sound) (key : String) :
    c.Conforms (.remaining key) := by
  refine .of_view h rfl ?_
  change LeaseBook.Step _ _ _ (.left (c.expiry.remaining c.now key)) _
  rcases c.alive_or_lost key with ⟨lease, halive⟩ | hlost
  · rw [Expiry.remaining_of_alive halive]
    exact .remainingAlive c.book key lease halive
  · rw [Expiry.remaining_of_lost hlost]
    exact .remainingLost c.book key hlost

theorem conforms {c : ExpiryClock} (h : c.expiry.Sound) (q : LeaseRequest) : c.Conforms q := by
  cases q with
  | set key ttl sliding =>
    exact .of_became (Expiry.became_set h c.now key ttl sliding) rfl
      (.set c.book key ttl sliding)
  | touch key => exact conforms_touch h key
  | updateTtl key ttl => exact conforms_updateTtl h key ttl
  | remove key =>
    obtain ⟨htold, hbecame⟩ := Expiry.became_remove h key
    refine .of_became hbecame rfl ?_
    change LeaseBook.Step _ _ _ (.told (c.expiry.remove key).1) _
    rw [htold]
    exact .remove c.book key
  | clear => exact .of_became (Expiry.became_clear c.expiry) rfl (.clear c.book)
  | cleanup limit => exact conforms_cleanup h limit
  | takeExpired limit =>
    obtain ⟨htook, hbecame⟩ := Expiry.became_takeExpired h c.now limit
    exact .of_became hbecame rfl (.takeExpired c.book limit _ _ htook)
  | advance delay => exact ⟨.advance c.book delay, h, rfl⟩
  | isTracked key =>
    refine .of_view h rfl ?_
    change LeaseBook.Step _ _ _ (.told (c.expiry.isTracked key)) _
    rw [c.expiry.isTracked_eq key]
    exact .isTracked c.book key
  | isExpired key => exact conforms_isExpired h key
  | remaining key => exact conforms_remaining h key
  | size => exact .of_view h rfl (.size c.book c.expiry.size c.expiry.encard_tracked)

/-- Leases with a queue in order answer a whole run as a plain map may. -/
theorem run_conforms_of_sound {c : ExpiryClock} (h : c.expiry.Sound)
    (requests : List LeaseRequest) :
    c.book.Run c.rules requests (c.run requests).1 (c.run requests).2.book := by
  induction requests generalizing c with
  | nil => exact .nil c.book
  | cons q rest ih =>
    obtain ⟨hstep, hsound, hrules⟩ := conforms h q
    have hrest := ih hsound
    rw [hrules] at hrest
    exact .cons hstep hrest

end ExpiryClock

/-- New leases, with any default time to live, batch and number of listeners, and started at any
time, answer any requests as a plain map without a queue may, tell their listeners the same, and
hold the same leases afterwards. -/
theorem Expiry.run_conforms (defaultTtl : Option Nat) (batch listeners now : Nat)
    (requests : List LeaseRequest) :
    LeaseBook.Run ⟨defaultTtl, batch, listeners⟩ { now } requests
      (ExpiryClock.run ⟨{ defaultTtl, batch, listeners }, now⟩ requests).1
      (ExpiryClock.run ⟨{ defaultTtl, batch, listeners }, now⟩ requests).2.book := by
  obtain ⟨hsound, hplain⟩ := Expiry.sound_empty (e := { defaultTtl, batch, listeners }) rfl rfl
  have hrun := ExpiryClock.run_conforms_of_sound (c := ⟨{ defaultTtl, batch, listeners }, now⟩)
    hsound requests
  have hbook : ExpiryClock.book ⟨{ defaultTtl, batch, listeners }, now⟩ = { now } := by
    unfold ExpiryClock.book
    rw [hplain]
  rw [hbook] at hrun
  exact hrun

/-- The first two deadlines of a key that was set again are stale. -/
example : (ExpiryClock.run ⟨{}, 0⟩ [.set "a" (some 5) false, .set "a" (some 7) false,
    .set "b" (some 6) true, .updateTtl "a" 9, .advance 7, .touch "b", .takeExpired none,
    .isTracked "a", .size]).1 =
    [.done, .done, .done, .told true, .done, .told false, .gone [⟨"b", 6, 6⟩], .told true,
      .count 1] := by rfl

end RoleAccess
