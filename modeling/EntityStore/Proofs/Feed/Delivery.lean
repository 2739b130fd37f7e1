import EntityStore.Proofs.Feed.History
import Mathlib.Data.List.Induction

/-!
# What a feed delivers

Whatever is asked of a feed, each subscription that stays open is handed all that is published from
then on, and a consumer who polls from its last place on gets everything after the place where it
began, as long as nothing that it has not got yet has had to make room. Nothing comes twice, and
everything comes in the order of publication.

Main statement: `Feed.loses_and_repeats_nothing`.
-/

namespace EntityStore.Feed

/-! ## Requests -/

/-- What may be asked of a feed. -/
inductive Request where
  | subscribe
  | close (number : Nat)
  | emit (change : ChangeSet)
  | poll (cursor : SequenceNumber) (limit : Nat)
  | drain (number : Nat)
  deriving DecidableEq

namespace Request

/-- What a feed is after a request. Polling leaves it as it is. -/
def on (f : Feed) : Request → Feed
  | subscribe => f.subscribe.2
  | close number => f.close number
  | emit change => (f.emit change).2
  | poll .. => f
  | drain number => (f.drain number).2

/-- What a request has the holder of a subscription take. -/
def taken (number : Nat) (f : Feed) : Request → List ChangeSet
  | drain n => if n = number then (f.drain n).1 else []
  | _ => []

def emitted? : Request → Option ChangeSet
  | emit change => some change
  | _ => none

end Request

def run (f : Feed) (requests : List Request) : Feed := requests.foldl Request.on f

/-- What a feed with a limit on its history is after some requests. -/
def after (limit : Nat) (requests : List Request) : Feed := (new limit).run requests

/-- Change sets numbered from the one after a place on. -/
def numberedAfter (place : Nat) : List ChangeSet → List ChangeSet
  | [] => []
  | c :: rest => { c with sequence := ⟨place + 1⟩ } :: numberedAfter (place + 1) rest

def emitted (requests : List Request) : List ChangeSet := requests.filterMap Request.emitted?

/-- All that requests have a new feed publish. -/
def published (requests : List Request) : List ChangeSet := numberedAfter 0 (emitted requests)

/-- All that the holder of a subscription is given while requests are made of a feed. -/
def sent (number : Nat) (f : Feed) : List Request → List ChangeSet
  | [] => (f.drain number).1
  | r :: rest => r.taken number f ++ sent number (r.on f) rest

/-! ## Publication -/

section Publishing

variable {f : Feed} {changes : List ChangeSet} {r : Request}

theorem length_numberedAfter (place : Nat) (changes : List ChangeSet) :
    (numberedAfter place changes).length = changes.length := by
  induction changes generalizing place with
  | nil => rfl
  | cons c rest ih => simp [numberedAfter, ih]

theorem numberedAfter_append (place : Nat) (changes later : List ChangeSet) :
    numberedAfter place (changes ++ later) =
      numberedAfter place changes ++ numberedAfter (place + changes.length) later := by
  induction changes generalizing place with
  | nil => rfl
  | cons c rest ih =>
    rw [List.cons_append, numberedAfter, numberedAfter, ih, List.cons_append, List.length_cons,
      Nat.add_assoc, Nat.add_comm 1]

theorem published_append (requests later : List Request) :
    published (requests ++ later) =
      published requests ++ numberedAfter (published requests).length (emitted later) := by
  rw [published, emitted, List.filterMap_append, numberedAfter_append, published,
    length_numberedAfter, Nat.zero_add]
  rfl

theorem Published.listen {g : Feed} (h : f.Published changes) (hlatest : g.latest = f.latest)
    (hhistory : g.history = f.history) (hlimit : g.maxHistory = f.maxHistory) :
    g.Published changes :=
  ⟨h.numbers, hlatest.trans h.latest, by rw [hhistory, hlimit, h.history]⟩

theorem Published.on (h : f.Published changes) (r : Request) :
    (r.on f).Published (changes ++ numberedAfter changes.length (r.emitted?.toList)) := by
  cases r with
  | emit c => exact h.emit c
  | subscribe | close _ | poll _ _ | drain _ =>
    exact (List.append_nil changes).symm ▸ h.listen rfl rfl rfl

theorem maxHistory_on (f : Feed) (r : Request) : (r.on f).maxHistory = f.maxHistory := by
  cases r <;> rfl

theorem emitted_cons (r : Request) (rest : List Request) :
    emitted (r :: rest) = r.emitted?.toList ++ emitted rest := by
  rw [emitted, List.filterMap_cons]
  cases r.emitted? <;> rfl

theorem Published.run (h : f.Published changes) (requests : List Request) :
    (f.run requests).Published (changes ++ numberedAfter changes.length (emitted requests)) ∧
      (f.run requests).maxHistory = f.maxHistory := by
  induction requests generalizing f changes with
  | nil => exact ⟨by rw [emitted, List.filterMap_nil, numberedAfter, List.append_nil]; exact h, rfl⟩
  | cons r rest ih =>
    obtain ⟨hpublished, hlimit⟩ := ih (h.on r)
    refine ⟨?_, hlimit.trans (maxHistory_on f r)⟩
    rw [emitted_cons, numberedAfter_append, ← List.append_assoc]
    rwa [List.length_append, length_numberedAfter] at hpublished

theorem published_after (limit : Nat) (requests : List Request) :
    (after limit requests).Published (published requests) ∧
      (after limit requests).maxHistory = limit :=
  (published_new limit).run requests

end Publishing

/-! ## Subscriptions -/

section Subscribing

variable {f : Feed} {number : Nat} {pending : List ChangeSet}

/-- The subscriptions that bear a number. -/
def bearing (number : Nat) (subscriptions : List Subscription) : List Subscription :=
  subscriptions.filter fun s => s.number = number

/-- A subscription is open, and some change sets wait to be taken from it. -/
structure Awaits (f : Feed) (number : Nat) (pending : List ChangeSet) : Prop where
  alone : bearing number f.subscriptions = [⟨number, true, pending⟩]
  given : number < f.subscribed

/-- Subscriptions bear the numbers that were given out. -/
def Numbered (f : Feed) : Prop := ∀ s ∈ f.subscriptions, s.number < f.subscribed

theorem Numbered.on (h : f.Numbered) (r : Request) : (r.on f).Numbered := by
  cases r with
  | subscribe =>
    intro s hs
    rcases List.mem_append.1 hs with hs | hs
    · exact Nat.lt_succ_of_lt (h s hs)
    · rw [List.mem_singleton.1 hs]
      exact Nat.lt_succ_self _
  | close n =>
    intro s hs
    obtain ⟨old, hold, rfl⟩ := List.mem_map.1 hs
    have := h old hold
    split <;> exact this
  | emit c =>
    intro s hs
    obtain ⟨old, hold, rfl⟩ := List.mem_map.1 hs
    exact h old (List.mem_filter.1 hold).1
  | poll _ _ => exact h
  | drain n =>
    intro s hs
    obtain ⟨old, hold, rfl⟩ := List.mem_map.1 hs
    have := h old hold
    split <;> exact this

theorem Numbered.run (h : f.Numbered) (requests : List Request) : (f.run requests).Numbered := by
  induction requests generalizing f with
  | nil => exact h
  | cons r rest ih => exact ih (h.on r)

theorem Numbered.awaits (h : f.Numbered) : f.subscribe.2.Awaits f.subscribe.1 [] := by
  refine ⟨?_, Nat.lt_succ_self _⟩
  have hnone : bearing f.subscribed f.subscriptions = [] :=
    List.filter_eq_nil_iff.2 fun s hs => by simpa using Nat.ne_of_lt (h s hs)
  show bearing f.subscribed (f.subscriptions ++ [⟨f.subscribed, true, []⟩]) = _
  rw [bearing, List.filter_append, ← bearing, hnone]
  simp [Feed.subscribe]

theorem bearing_map {change : Subscription → Subscription}
    (hchange : ∀ s, (change s).number = s.number) (subscriptions : List Subscription) :
    bearing number (subscriptions.map change) = (bearing number subscriptions).map change := by
  rw [bearing, bearing, List.filter_map]
  simp only [Function.comp_def, hchange]

namespace Awaits

theorem drained (h : f.Awaits number pending) : (f.drain number).1 = pending := by
  show (bearing number f.subscriptions).flatMap (·.received) = pending
  rw [h.alone]
  simp

theorem subscribe (h : f.Awaits number pending) : f.subscribe.2.Awaits number pending := by
  refine ⟨?_, Nat.lt_succ_of_lt h.given⟩
  show bearing number (f.subscriptions ++ [⟨f.subscribed, true, []⟩]) = _
  rw [bearing, List.filter_append, ← bearing, h.alone]
  simp [Nat.ne_of_gt h.given]

theorem close (h : f.Awaits number pending) {other : Nat} (hne : number ≠ other) :
    (f.close other).Awaits number pending := by
  refine ⟨?_, h.given⟩
  rw [Feed.close, bearing_map fun s => by split <;> rfl, h.alone]
  simp [hne]

theorem drain (h : f.Awaits number pending) (other : Nat) :
    (f.drain other).2.Awaits number (if other = number then [] else pending) := by
  refine ⟨?_, h.given⟩
  rw [Feed.drain, bearing_map fun s => by split <;> rfl, h.alone]
  by_cases heq : other = number
  · simp [heq]
  · simp [heq, Ne.symm heq]

theorem emit (h : f.Awaits number pending) (c : ChangeSet) :
    (f.emit c).2.Awaits number (pending ++ [{ c with sequence := f.latest.next }]) := by
  refine ⟨?_, h.given⟩
  show bearing number ((f.subscriptions.filter (·.isOpen)).map
    (·.deliver { c with sequence := f.latest.next })) = _
  -- a delivery leaves the number, and this subscription is open, so it is among those delivered to
  have hnumber (s : Subscription) (c : ChangeSet) : (s.deliver c).number = s.number := rfl
  rw [bearing_map fun s => hnumber s _, bearing, List.filter_filter]
  simp only [Bool.and_comm]
  rw [← List.filter_filter, ← bearing, h.alone]
  rfl

/-- What is given to the holder of an open subscription is what waited at first and all that is
published after that. -/
theorem sent (h : f.Awaits number pending) {requests : List Request}
    (hopen : .close number ∉ requests) :
    sent number f requests = pending ++ numberedAfter f.latest.number (emitted requests) := by
  induction requests generalizing f pending with
  | nil => rw [Feed.sent, h.drained, emitted, List.filterMap_nil, numberedAfter, List.append_nil]
  | cons r rest ih =>
    obtain ⟨hr, hrest⟩ := not_or.1 (mt List.mem_cons.2 hopen)
    cases r with
    | subscribe => exact ih h.subscribe hrest
    | close n => exact ih (h.close fun heq => hr (heq ▸ rfl)) hrest
    | emit c =>
      have hsent := ih (h.emit c) hrest
      rw [List.append_assoc] at hsent
      exact hsent
    | poll _ _ => exact ih h hrest
    | drain n =>
      have hsent := ih (h.drain n) hrest
      rw [Feed.sent, Request.taken, Request.on, hsent]
      by_cases heq : n = number
      · rw [if_pos heq, if_pos heq, heq, h.drained, List.nil_append]
        rfl
      · rw [if_neg heq, if_neg heq, List.nil_append]
        rfl

end Awaits

theorem sent_since (limit : Nat) (before : List Request) {later : List Request}
    (hopen : .close (after limit before).subscribe.1 ∉ later) :
    sent (after limit before).subscribe.1 (after limit before).subscribe.2 later =
      (published (before ++ .subscribe :: later)).drop (published before).length := by
  have hnumbered : (after limit before).Numbered :=
    Numbered.run (fun _ hs => absurd hs List.not_mem_nil) before
  have hlatest : (after limit before).subscribe.2.latest = ⟨(published before).length⟩ :=
    (published_after limit before).1.latest
  rw [hnumbered.awaits.sent hopen, hlatest, published_append, List.drop_left, List.nil_append]
  rfl

end Subscribing

/-! ## Consumers -/

/-- A consumer polls for what comes after the last change set that it has got. -/
structure Consumer where
  cursor : SequenceNumber
  received : List ChangeSet

def Consumer.read (f : Feed) (limit : Nat) (c : Consumer) : Consumer :=
  let got := f.poll c.cursor limit
  { cursor := (got.getLast?.map (·.sequence)).getD c.cursor, received := c.received ++ got }

/-- What happens to a feed that a consumer follows: a request from elsewhere, or a poll by the
consumer, who asks for no more change sets than some number. -/
inductive Event where
  | request (r : Request)
  | read (limit : Nat)
  deriving DecidableEq

def Event.request? : Event → Option Request
  | request r => some r
  | read _ => none

def Event.isRead : Event → Bool
  | request _ => false
  | read _ => true

/-- A feed and a consumer who follows it. -/
structure Followed where
  feed : Feed
  consumer : Consumer

def Followed.on (s : Followed) : Event → Followed
  | .request r => { s with feed := r.on s.feed }
  | .read limit => { s with consumer := s.consumer.read s.feed limit }

/-- What becomes of a new feed and a consumer who starts at a place. -/
def followed (maxHistory : Nat) (start : SequenceNumber) (events : List Event) : Followed :=
  events.foldl Followed.on ⟨new maxHistory, ⟨start, []⟩⟩

/-- All that is published while a consumer follows a feed. -/
def publishedIn (events : List Event) : List ChangeSet :=
  published (events.filterMap Event.request?)

/-- Whenever the consumer polls, all that was published after its place is still kept. -/
def KeepsUp (maxHistory : Nat) (start : SequenceNumber) (events : List Event) : Prop :=
  ∀ before limit later, events = before ++ .read limit :: later →
    ∀ c ∈ publishedIn before,
      (followed maxHistory start before).consumer.cursor.number < c.sequence.number →
      c ∈ (followed maxHistory start before).feed.history

/-- It is enough to look at the places of polls. -/
theorem keepsUp_iff {maxHistory : Nat} {start : SequenceNumber} {events : List Event} :
    KeepsUp maxHistory start events ↔
      ∀ i < events.length, (events[i]?.any Event.isRead) = true →
        ∀ c ∈ publishedIn (events.take i),
          (followed maxHistory start (events.take i)).consumer.cursor.number < c.sequence.number →
          c ∈ (followed maxHistory start (events.take i)).feed.history := by
  constructor
  · intro h i hi hread
    rw [List.getElem?_eq_getElem hi, Option.any_some] at hread
    have hsplit : events = events.take i ++ events[i] :: events.drop (i + 1) := by
      rw [← List.drop_eq_getElem_cons hi, List.take_append_drop]
    cases hevent : events[i] with
    | request r =>
      rw [hevent] at hread
      cases hread
    | read limit => exact h _ limit _ (hevent ▸ hsplit)
  · rintro h before limit later rfl
    have hkept := h before.length (by simp) (by simp [Event.isRead])
    rwa [List.take_left] at hkept

instance (maxHistory : Nat) (start : SequenceNumber) (events : List Event) :
    Decidable (KeepsUp maxHistory start events) :=
  decidable_of_iff _ keepsUp_iff.symm

section Consuming

variable {maxHistory : Nat} {start : SequenceNumber} {events : List Event}
  {changes : List ChangeSet} {s : Followed}

/-- The place of a consumer who has read a stretch. -/
theorem cursor_after_stretch {f : Feed} (h : f.Published changes) (cursor : SequenceNumber)
    (limit : Nat) :
    let got := (changes.drop cursor.number).take limit
    (got.getLast?.map (·.sequence)).getD cursor = ⟨cursor.number + got.length⟩ := by
  intro got
  cases hlength : got.length with
  | zero => rw [List.length_eq_zero_iff.1 hlength]; rfl
  | succ n =>
    have hn : n < got.length := by omega
    have hlimit : n < limit := Nat.lt_of_lt_of_le hn (List.length_take_le _ _)
    have hlast : changes[cursor.number + n]? = some got[n] := by
      rw [← List.getElem?_drop, ← List.getElem?_take_of_lt hlimit, ← List.getElem?_eq_getElem hn]
    rw [List.getLast?_eq_getElem?, hlength, Nat.add_sub_cancel, List.getElem?_eq_getElem hn,
      Option.map_some, Option.getD_some, h.sequence_of_getElem? hlast]
    rfl

/-- A consumer has got all that was published between the place where it started and the place where
it is. -/
structure Followed.Consumed (s : Followed) (start : SequenceNumber) (changes : List ChangeSet) :
    Prop where
  published : s.feed.Published changes
  started : start.number ≤ s.consumer.cursor.number
  bounded : s.consumer.cursor.number = start.number ∨ s.consumer.cursor.number ≤ changes.length
  received : s.consumer.received = (changes.take s.consumer.cursor.number).drop start.number

theorem Followed.Consumed.request (h : s.Consumed start changes) (r : Request) :
    (s.on (.request r)).Consumed start
      (changes ++ numberedAfter changes.length r.emitted?.toList) where
  published := h.published.on r
  started := h.started
  bounded := h.bounded.imp_right fun hle => by
    rw [List.length_append]
    exact Nat.le_add_right_of_le hle
  received := by
    show s.consumer.received = _
    rw [h.received]
    show _ = (List.take s.consumer.cursor.number _).drop start.number
    -- a consumer who started ahead of all that is published has got nothing yet
    rcases h.bounded with heq | hle
    · rw [heq, List.drop_eq_nil_of_le (List.length_take_le _ _),
        List.drop_eq_nil_of_le (List.length_take_le _ _)]
    · rw [List.take_append_of_le_length hle]

/-- A consumer who has missed nothing reads what comes next. -/
theorem Followed.Consumed.read (h : s.Consumed start changes)
    (hkept : ∀ c ∈ changes, s.consumer.cursor.number < c.sequence.number → c ∈ s.feed.history)
    (limit : Nat) :
    (s.on (.read limit)).Consumed start changes ∧
      (s.on (.read limit)).consumer.cursor.number =
        s.consumer.cursor.number + min limit (changes.length - s.consumer.cursor.number) := by
  have hgot := h.published.poll_of_kept hkept limit
  have hcursor : (s.on (.read limit)).consumer.cursor.number = s.consumer.cursor.number +
      min limit (changes.length - s.consumer.cursor.number) := by
    show (((s.feed.poll s.consumer.cursor limit).getLast?.map (·.sequence)).getD
      s.consumer.cursor).number = _
    rw [hgot, cursor_after_stretch h.published, List.length_take, List.length_drop]
  refine ⟨⟨h.published, ?_, ?_, ?_⟩, hcursor⟩
  · rw [hcursor]
    exact Nat.le_add_right_of_le h.started
  · rw [hcursor]
    have := h.bounded
    omega
  · show s.consumer.received ++ s.feed.poll s.consumer.cursor limit = _
    have hplace : s.consumer.cursor.number =
        start.number + (s.consumer.cursor.number - start.number) :=
      (Nat.add_sub_cancel' h.started).symm
    rw [hcursor, h.received, hgot, List.drop_take, List.drop_take, Nat.sub_add_comm h.started,
      List.take_add, List.drop_drop, ← hplace, ← List.length_drop, ← List.take_eq_take_min]

theorem followed_concat (maxHistory : Nat) (start : SequenceNumber) (events : List Event)
    (e : Event) :
    followed maxHistory start (events ++ [e]) = (followed maxHistory start events).on e := by
  rw [followed, List.foldl_append]
  rfl

theorem publishedIn_append (events later : List Event) :
    publishedIn (events ++ later) = publishedIn events ++
      numberedAfter (publishedIn events).length (emitted (later.filterMap Event.request?)) := by
  rw [publishedIn, List.filterMap_append, published_append]
  rfl

theorem publishedIn_request (events : List Event) (r : Request) :
    publishedIn (events ++ [.request r]) = publishedIn events ++
      numberedAfter (publishedIn events).length r.emitted?.toList := by
  rw [publishedIn_append]
  show _ ++ numberedAfter _ (emitted [r]) = _
  rw [emitted_cons, emitted, List.filterMap_nil, List.append_nil]

theorem publishedIn_read (events : List Event) (limit : Nat) :
    publishedIn (events ++ [.read limit]) = publishedIn events := by
  rw [publishedIn_append]
  exact List.append_nil _

theorem KeepsUp.of_append {later : List Event} (h : KeepsUp maxHistory start (events ++ later)) :
    KeepsUp maxHistory start events := by
  intro before limit rest heq
  exact h before limit (rest ++ later) (by rw [heq, List.append_assoc, List.cons_append])

theorem KeepsUp.kept {limit : Nat} (h : KeepsUp maxHistory start (events ++ [.read limit])) :
    ∀ c ∈ publishedIn events,
      (followed maxHistory start events).consumer.cursor.number < c.sequence.number →
      c ∈ (followed maxHistory start events).feed.history :=
  h events limit [] rfl

/-- A consumer who keeps up has got a stretch of what is published, which begins where it did. -/
theorem KeepsUp.consumed (h : KeepsUp maxHistory start events) :
    (followed maxHistory start events).Consumed start (publishedIn events) := by
  -- from the end, for who keeps up along all events keeps up along all but the last
  induction events using List.reverseRecOn with
  | nil =>
    refine ⟨published_new maxHistory, Nat.le_refl _, .inl rfl, ?_⟩
    exact (List.drop_eq_nil_of_le (List.length_take_le _ _)).symm
  | append_singleton events e ih =>
    have hconsumed := ih h.of_append
    rw [followed_concat]
    cases e with
    | request r =>
      rw [publishedIn_request]
      exact hconsumed.request r
    | read limit =>
      rw [publishedIn_read]
      exact (hconsumed.read h.kept limit).1

/-- Each time a consumer polls it gets something, until it has got all that was published. -/
theorem KeepsUp.progress {before later : List Event}
    (h : KeepsUp maxHistory start (before ++ later))
    (hsome : ∀ limit, .read limit ∈ later → 0 < limit) :
    min (publishedIn before).length
        ((followed maxHistory start before).consumer.cursor.number + later.countP Event.isRead) ≤
      (followed maxHistory start (before ++ later)).consumer.cursor.number := by
  induction later using List.reverseRecOn with
  | nil =>
    rw [List.append_nil]
    exact Nat.min_le_right _ _
  | append_singleton later e ih =>
    rw [← List.append_assoc] at h ⊢
    have hprogress := ih h.of_append fun limit hmem => hsome limit (List.mem_append_left _ hmem)
    rw [followed_concat, List.countP_append]
    cases e with
    | request r => exact hprogress
    | read limit =>
      have hlimit : 0 < limit := hsome limit (List.mem_append_right _ List.mem_cons_self)
      have hlength : (publishedIn before).length ≤ (publishedIn (before ++ later)).length := by
        rw [publishedIn_append, List.length_append]
        exact Nat.le_add_right _ _
      have hone : [Event.read limit].countP Event.isRead = 1 := rfl
      rw [hone, (h.of_append.consumed.read h.kept limit).2]
      omega

/-- What a consumer who keeps up has got: all that was published after the place where it began and
up to its own place, once and in order. Once it has polled as often as there were change sets left
to get, it has got them. -/
structure Reads (maxHistory : Nat) (start : SequenceNumber) (events : List Event) : Prop where
  received : (followed maxHistory start events).consumer.received =
    (publishedIn events).filter fun c => start.number < c.sequence.number ∧
      c.sequence.number ≤ (followed maxHistory start events).consumer.cursor.number
  once : (followed maxHistory start events).consumer.received.Nodup
  caughtUp : ∀ before later, events = before ++ later →
    (∀ limit, .read limit ∈ later → 0 < limit) →
    ((publishedIn before).filter fun c =>
      (followed maxHistory start before).consumer.cursor.number < c.sequence.number).length ≤
        later.countP Event.isRead →
    ∀ c ∈ publishedIn before, start.number < c.sequence.number →
      c ∈ (followed maxHistory start events).consumer.received

theorem KeepsUp.reads (h : KeepsUp maxHistory start events) : Reads maxHistory start events := by
  have hconsumed := h.consumed
  have hreceived := hconsumed.received
  rw [← hconsumed.published.between] at hreceived
  refine ⟨hreceived, hreceived ▸ hconsumed.published.nodup.filter _, ?_⟩
  rintro before later rfl hsome hunread c hc hstart
  have hprogress := h.progress hsome
  have hbefore := h.of_append.consumed.published
  rw [hbefore.after, List.length_drop] at hunread
  have hle := hbefore.number_le hc
  rw [hreceived, List.mem_filter, decide_eq_true_iff]
  refine ⟨?_, hstart, by omega⟩
  rw [publishedIn_append]
  exact List.mem_append_left _ hc

end Consuming

/-! ## All together -/

/-- A feed gives the numbers one, two, three and so on, keeps the last change sets that it has room
for, and gives those who poll the first of them that come after their place. -/
structure Serves (f : Feed) (maxHistory : Nat) (changes : List ChangeSet) : Prop where
  numbers : changes.map (·.sequence.number) = List.range' 1 changes.length
  assigned : ∀ c, (f.emit c).1 = ⟨changes.length + 1⟩
  latest : f.latest = ⟨changes.length⟩
  history : (∃ gone, changes = gone ++ f.history) ∧
    f.history.length = min maxHistory changes.length
  poll : ∀ cursor limit, f.poll cursor limit =
    ((changes.drop (changes.length - maxHistory)).filter fun c =>
      cursor.number < c.sequence.number).take limit

theorem Published.serves {f : Feed} {changes : List ChangeSet} (h : f.Published changes) :
    f.Serves f.maxHistory changes where
  numbers := h.numbers
  assigned c := by
    show f.latest.next = _
    rw [h.latest]
    rfl
  latest := h.latest
  history := h.history_suffix
  poll cursor limit := by
    rw [Feed.poll, h.history, keepLast]

/-- However requests follow one another, a feed numbers what it publishes without a gap and keeps
the end of it. Whoever has subscribed is given all that is published until the subscription is
closed, and a consumer who keeps up gets all that is published after its first place. -/
theorem loses_and_repeats_nothing (maxHistory : Nat) :
    (∀ requests, (after maxHistory requests).Serves maxHistory (published requests)) ∧
    (∀ before later, .close (after maxHistory before).subscribe.1 ∉ later →
      sent (after maxHistory before).subscribe.1 (after maxHistory before).subscribe.2 later =
        (published (before ++ .subscribe :: later)).drop (published before).length) ∧
    (∀ start events, KeepsUp maxHistory start events → Reads maxHistory start events) := by
  refine ⟨fun requests => ?_, fun before later => sent_since maxHistory before,
    fun start events => KeepsUp.reads⟩
  obtain ⟨hpublished, hlimit⟩ := published_after maxHistory requests
  have hserves := hpublished.serves
  rwa [hlimit] at hserves

/-- A change set that says nothing but its name. -/
def notice (name : String) : ChangeSet :=
  { sequence := ⟨0⟩, transaction := ⟨1⟩, name := name, updates := .empty, deleted := .empty }

/-- Of three change sets the consumer has read the first when the third takes its place in a history
of two. Whoever subscribes after the first is handed the others, also when one of them has been
taken before the last comes. -/
theorem slow_reader_gets_all :
    let events : List Event := [.request (.emit (notice "a")), .request (.emit (notice "b")),
      .read 1, .request (.emit (notice "c")), .read 5]
    let opened := (after 2 [.emit (notice "a")]).subscribe
    let later : List Request := [.emit (notice "b"), .drain 0, .close 1, .emit (notice "c")]
    KeepsUp 2 ⟨0⟩ events ∧ Reads 2 ⟨0⟩ events ∧
      (followed 2 ⟨0⟩ events).consumer.received.map (·.name) = ["a", "b", "c"] ∧
      .close opened.1 ∉ later ∧ (sent opened.1 opened.2 later).map (·.name) = ["b", "c"] := by
  intro events opened later
  obtain ⟨-, hsent, hreads⟩ := loses_and_repeats_nothing 2
  have hkeeps : KeepsUp 2 ⟨0⟩ events := by decide
  have hopen : .close opened.1 ∉ later := by decide
  refine ⟨hkeeps, hreads _ _ hkeeps, by decide, hopen, ?_⟩
  rw [hsent [.emit (notice "a")] later hopen]
  decide

end EntityStore.Feed
