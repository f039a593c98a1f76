import VersionRange.Lookahead

/-!
# Streams and the supply of their sources

A stream shows and hands out what its source supplies, item by item and in order, and reports the
ending of the source for ever. Showing an item leaves it where it is, with one exception: the slot
does not keep an item that looks like an empty slot, so that it is lost once it has been shown.
-/

namespace VersionRange

/-! ### What a source supplies -/

/-- The items that are to come, and the ending behind them. -/
structure Supply (α ε : Type) where
  items : List α
  ending : Ending ε
  deriving DecidableEq

namespace Source

variable {σ α ε : Type} [Source σ α ε]

/-- What a source supplies from a state on. -/
def supply (s : σ) : Supply α ε :=
  match _h : pull s with
  | .error ending => ⟨[], ending⟩
  | .ok (item, t) => ⟨item :: (supply t).items, (supply t).ending⟩
termination_by size s
decreasing_by all_goals exact size_pull _h

private theorem supply_of_pull_error {s : σ} {ending : Ending ε} (h : pull s = .error ending) :
    supply s = ⟨[], ending⟩ := by
  rw [supply]
  split <;> simp_all

private theorem supply_of_pull_ok {s t : σ} {item : α} (h : pull s = .ok (item, t)) :
    supply s = ⟨item :: (supply t).items, (supply t).ending⟩ := by
  rw [supply]
  split <;> simp_all

end Source

/-- A list supplies its items up to its first error, or up to its end. -/
theorem Items.supply_eq {α ε : Type} (items : List (Option α)) {rest : List (Except ε (Option α))}
    {ending : Ending ε} (h : (⟨rest⟩ : Items α ε).pull = .error ending) :
    Source.supply (⟨items.map .ok ++ rest⟩ : Items α ε) = ⟨items, ending⟩ := by
  induction items with
  | nil => exact Source.supply_of_pull_error h
  | cons item items ih =>
    have hpull : Source.pull (⟨(item :: items).map .ok ++ rest⟩ : Items α ε) =
        .ok (item, ⟨items.map .ok ++ rest⟩) := rfl
    rw [Source.supply_of_pull_ok hpull, ih]

/-! ### Requests -/

namespace Lookahead

/-- What may be asked of a stream. -/
inductive Request
  /-- Show the next item. -/
  | peek
  /-- Hand out the next item. -/
  | next
  /-- Hand out items one by one until the source ends. -/
  | iterate

/-- What a stream replies. -/
inductive Reply (α ε : Type)
  | shown (item : α)
  | handed (item : α)
  /-- The items handed out one by one, and what ended them. -/
  | rest (supply : Supply α ε)
  | ended (ending : Ending ε)
  deriving DecidableEq

namespace Reply

variable {α ε : Type}

/-- The items that are handed out. -/
def handedOut : Reply α ε → List α
  | handed item => [item]
  | rest supply => supply.items
  | shown _ | ended _ => []

/-- Decide whether a reply tells that the source has ended. -/
def isLast : Reply α ε → Bool
  | rest _ | ended _ => true
  | shown _ | handed _ => false

/-- Decide whether a reply shows an item that is lost. -/
def loses (drops : α → Bool) : Reply α ε → Bool
  | shown item => drops item
  | handed _ | rest _ | ended _ => false

theorem forall_loses_eq_false_iff {drops : α → Bool} {replies : List (Reply α ε)} :
    (∀ reply ∈ replies, reply.loses drops = false) ↔
      ∀ item, .shown item ∈ replies → drops item = false := by
  constructor
  · intro h item hitem
    exact h _ hitem
  · intro h reply hreply
    cases reply with
    | shown item => exact h item hreply
    | handed | rest | ended => rfl

end Reply

end Lookahead

namespace Supply

open Lookahead

variable {α ε : Type} {drops : α → Bool} {s : Supply α ε} {ending : Ending ε}

/-- The reply out of a supply, and what is to come behind it. Items that `drops` picks are lost once
they are shown; a faithful supply drops none. -/
def reply (drops : α → Bool) (s : Supply α ε) : Request → Reply α ε × Supply α ε
  | .peek =>
    match s.items with
    | [] => (.ended s.ending, s)
    | item :: rest => (.shown item, if drops item then { s with items := rest } else s)
  | .next =>
    match s.items with
    | [] => (.ended s.ending, s)
    | item :: rest => (.handed item, { s with items := rest })
  | .iterate => (.rest s, { s with items := [] })

/-- The replies to requests one after the other, and what is to come behind them. -/
def run (drops : α → Bool) (s : Supply α ε) : List Request → List (Reply α ε) × Supply α ε
  | [] => ([], s)
  | request :: requests =>
    let first := s.reply drops request
    let later := run drops first.2 requests
    (first.1 :: later.1, later.2)

@[simp]
theorem run_nil : s.run drops [] = ([], s) := rfl

@[simp]
theorem run_cons (request : Request) (requests : List Request) :
    s.run drops (request :: requests) =
      ((s.reply drops request).1 :: ((s.reply drops request).2.run drops requests).1,
        ((s.reply drops request).2.run drops requests).2) := rfl

/-! #### What is handed out -/

/-- What a reply hands out and what it leaves come from the items, in their order. -/
theorem reply_sublist (request : Request) :
    ((s.reply drops request).1.handedOut ++ (s.reply drops request).2.items).Sublist s.items := by
  obtain ⟨items, ending⟩ := s
  cases request with
  | peek =>
    cases items with
    | nil => simp [reply, Reply.handedOut]
    | cons item rest => by_cases h : drops item <;> simp [reply, Reply.handedOut, h]
  | next => cases items <;> simp [reply, Reply.handedOut]
  | iterate => simp [reply, Reply.handedOut]

/-- A reply hands out or leaves every item, unless it shows one that is lost. -/
theorem reply_eq_items_iff (request : Request) :
    (s.reply drops request).1.handedOut ++ (s.reply drops request).2.items = s.items ↔
      (s.reply drops request).1.loses drops = false := by
  obtain ⟨items, ending⟩ := s
  cases request with
  | peek =>
    cases items with
    | nil => simp [reply, Reply.handedOut, Reply.loses]
    | cons item rest =>
      by_cases h : drops item <;> simp [reply, Reply.handedOut, Reply.loses, h]
  | next => cases items <;> simp [reply, Reply.handedOut, Reply.loses]
  | iterate => simp [reply, Reply.handedOut, Reply.loses]

private theorem run_sublist (requests : List Request) :
    ((s.run drops requests).1.flatMap Reply.handedOut ++
      (s.run drops requests).2.items).Sublist s.items := by
  induction requests generalizing s with
  | nil => simp
  | cons request requests ih =>
    rw [run_cons, List.flatMap_cons, List.append_assoc]
    exact (ih.append_left _).trans (reply_sublist request)

/-- Nothing is missing behind a front exactly if nothing is missing from either part. -/
private theorem append_eq_iff_of_sublist {front xs ys items : List α} (hxs : xs.Sublist ys)
    (hys : (front ++ ys).Sublist items) :
    front ++ xs = items ↔ front ++ ys = items ∧ xs = ys := by
  constructor
  · intro h
    have hle := hys.length_le
    rw [← h, List.length_append, List.length_append] at hle
    have heq : xs = ys := hxs.eq_of_length_le (by omega)
    exact ⟨heq ▸ h, heq⟩
  · rintro ⟨h, rfl⟩
    exact h

/-- What a run hands out and what it leaves are all the items, unless one is shown that is lost. -/
theorem run_eq_items_iff (requests : List Request) :
    (s.run drops requests).1.flatMap Reply.handedOut ++ (s.run drops requests).2.items = s.items ↔
      ∀ reply ∈ (s.run drops requests).1, reply.loses drops = false := by
  induction requests generalizing s with
  | nil => simp
  | cons request requests ih =>
    rw [run_cons, List.flatMap_cons, List.append_assoc, List.forall_mem_cons,
      append_eq_iff_of_sublist (run_sublist requests) (reply_sublist request),
      reply_eq_items_iff, ih]

/-- A supply that loses nothing replies as a faithful one. -/
theorem run_eq_faithful {requests : List Request}
    (h : ∀ reply ∈ (s.run drops requests).1, reply.loses drops = false) :
    s.run drops requests = s.run (fun _ ↦ false) requests := by
  induction requests generalizing s with
  | nil => rfl
  | cons request requests ih =>
    rw [run_cons, List.forall_mem_cons] at h
    have hreply : s.reply drops request = s.reply (fun _ ↦ false) request := by
      obtain ⟨items, ending⟩ := s
      cases request with
      | peek =>
        cases items with
        | nil => rfl
        | cons item rest =>
          have hitem : drops item = false := h.1
          simp [reply, hitem]
      | next => rfl
      | iterate => rfl
    rw [run_cons, run_cons, ih h.2, hreply]

/-! #### The ending -/

private theorem reply_ending (request : Request) : (s.reply drops request).2.ending = s.ending := by
  obtain ⟨items, ending⟩ := s
  cases request with
  | peek =>
    cases items with
    | nil => rfl
    | cons item rest => by_cases h : drops item <;> simp [reply, h]
  | next => cases items <;> rfl
  | iterate => rfl

private theorem run_ending (requests : List Request) :
    (s.run drops requests).2.ending = s.ending := by
  induction requests generalizing s with
  | nil => rfl
  | cons request requests ih => rw [run_cons, ih, reply_ending]

/-- Where no items are left, every request is replied to with the ending. -/
theorem run_of_nil (requests : List Request) :
    ((⟨[], ending⟩ : Supply α ε).run drops requests).2.items = [] ∧
      ∀ reply ∈ ((⟨[], ending⟩ : Supply α ε).run drops requests).1,
        reply = .ended ending ∨ reply = .rest ⟨[], ending⟩ := by
  induction requests with
  | nil => simp
  | cons request requests ih =>
    cases request <;> simpa [reply] using ih

private theorem reply_of_isLast {request : Request} (h : (s.reply drops request).1.isLast = true) :
    (s.reply drops request).2.items = [] := by
  obtain ⟨items, ending⟩ := s
  cases request with
  | peek | next =>
    cases items with
    | nil => rfl
    | cons item rest => cases h
  | iterate => rfl

/-- Once a reply tells of the ending, no items are left. -/
theorem run_of_isLast {requests : List Request}
    (h : (s.run drops requests).1.any Reply.isLast = true) :
    (s.run drops requests).2.items = [] := by
  induction requests generalizing s with
  | nil => cases h
  | cons request requests ih =>
    rw [run_cons, List.any_cons, Bool.or_eq_true] at h
    rcases h with h | h
    · have hnone := reply_of_isLast h
      rw [run_cons]
      rcases hs : (s.reply drops request).2 with ⟨items, ending⟩
      rw [hs] at hnone
      obtain rfl : items = [] := hnone
      exact (run_of_nil requests).1
    · exact ih h

end Supply

/-! ### Streams -/

namespace Lookahead

variable {σ α ε : Type} [Source σ α ε] {s t : Lookahead σ} {item : α} {ending : Ending ε}

/-- A stream on a source of which nothing has been taken. -/
def ofSource (source : σ) : Lookahead σ := { source }

/-- Hand out items one by one until the source ends. -/
def iterate (s : Lookahead σ) : Supply α ε × Lookahead σ :=
  match _h : s.next with
  | (.error ending, t) => (⟨[], ending⟩, t)
  | (.ok item, t) => (⟨item :: (iterate t).1.items, (iterate t).1.ending⟩, (iterate t).2)
termination_by s.size
decreasing_by all_goals exact size_next _h

private theorem iterate_of_error (h : s.next = (.error ending, t)) :
    s.iterate = (⟨[], ending⟩, t) := by
  rw [iterate]
  split <;> simp_all

private theorem iterate_of_ok (h : s.next = (.ok item, t)) :
    s.iterate = (⟨item :: t.iterate.1.items, t.iterate.1.ending⟩, t.iterate.2) := by
  rw [iterate]
  split <;> simp_all

/-- Draining a stream hands out items one by one, and an error takes their place. -/
theorem drain_eq_iterate (s : Lookahead σ) :
    s.drain =
      (match s.iterate.1.ending with
        | .exhausted => .ok s.iterate.1.items
        | .failed error => .error error, s.iterate.2) := by
  fun_induction drain s with
  | case1 s t h => rw [iterate_of_error h]
  | case2 s error t h => rw [iterate_of_error h]
  | case3 s item t h items u hdrain ih =>
    rw [hdrain, Prod.mk.injEq] at ih
    rw [iterate_of_ok h, ih.2]
    cases hending : t.iterate.1.ending <;> simp_all
  | case4 s item t h error u hdrain ih =>
    rw [hdrain, Prod.mk.injEq] at ih
    rw [iterate_of_ok h, ih.2]
    cases hending : t.iterate.1.ending <;> simp_all

/-- How a stream replies to a request, and the stream behind it. -/
def reply (s : Lookahead σ) : Request → Reply α ε × Lookahead σ
  | .peek =>
    match s.peek with
    | (.ok item, t) => (.shown item, t)
    | (.error ending, t) => (.ended ending, t)
  | .next =>
    match s.next with
    | (.ok item, t) => (.handed item, t)
    | (.error ending, t) => (.ended ending, t)
  | .iterate => (.rest s.iterate.1, s.iterate.2)

/-- The replies of a stream to requests one after the other, and the stream behind them. -/
def run (s : Lookahead σ) : List Request → List (Reply α ε) × Lookahead σ
  | [] => ([], s)
  | request :: requests =>
    let first := s.reply request
    let later := run first.2 requests
    (first.1 :: later.1, later.2)

/-- What is to come out of a stream. -/
def supply (s : Lookahead σ) : Supply α ε :=
  match s.ending with
  | some ending => ⟨[], ending⟩
  | none => ⟨s.slot.toList ++ (Source.supply s.source).items, (Source.supply s.source).ending⟩

/-- The item in the slot, if there is one, does not look like an empty slot. -/
def IsProper (s : Lookahead σ) : Prop := ∀ item, s.slot = some item → Source.isVoid σ item = false

private theorem supply_ofSource (source : σ) :
    (ofSource source).supply = Source.supply source := rfl

private theorem isProper_ofSource (source : σ) : (ofSource source).IsProper := nofun

private theorem supply_of_slot (hending : t.ending = none) (hslot : t.slot = some item) :
    t.supply = ⟨item :: (Source.supply t.source).items, (Source.supply t.source).ending⟩ := by
  simp [supply, hending, hslot]

private theorem supply_of_no_slot (hending : t.ending = none) (hslot : t.slot = none) :
    t.supply = Source.supply t.source := by
  simp [supply, hending, hslot]

/-- Either nothing is to come, and the stream shows the ending, or the stream shows the next item,
and keeps it in the slot unless it looks like an empty slot. -/
theorem peek_cases (hs : s.IsProper) :
    (∃ ending t, s.peek = (.error ending, t) ∧ s.supply = ⟨[], ending⟩ ∧ t.supply = ⟨[], ending⟩ ∧
      t.IsProper) ∨
    ∃ item t, s.peek = (.ok item, t) ∧ t.ending = none ∧
      t.slot = (if Source.isVoid σ item then none else some item) ∧
      s.supply = ⟨item :: (Source.supply t.source).items, (Source.supply t.source).ending⟩ := by
  obtain ⟨source, slot, ending⟩ := s
  cases ending with
  | some ending => exact .inl ⟨ending, _, rfl, rfl, rfl, hs⟩
  | none =>
    cases slot with
    | some item => exact .inr ⟨item, _, rfl, rfl, by simp [hs item rfl], rfl⟩
    | none =>
      cases hpull : Source.pull source with
      | error ending =>
        refine .inl ⟨ending, ⟨source, none, some ending⟩, by simp [peek, hpull], ?_, rfl, nofun⟩
        rw [supply_of_no_slot rfl rfl, Source.supply_of_pull_error hpull]
      | ok pulled =>
        let kept := if Source.isVoid σ pulled.1 then none else some pulled.1
        refine .inr ⟨pulled.1, ⟨pulled.2, kept, none⟩, by simp [peek, hpull, kept], rfl, rfl, ?_⟩
        rw [supply_of_no_slot rfl rfl, Source.supply_of_pull_ok hpull]

/-- A stream hands out the next item, or the ending if nothing is to come. -/
theorem next_cases (hs : s.IsProper) :
    (∃ ending t, s.next = (.error ending, t) ∧ s.supply = ⟨[], ending⟩ ∧ t.supply = ⟨[], ending⟩ ∧
      t.IsProper) ∨
    ∃ item t, s.next = (.ok item, t) ∧ t.IsProper ∧
      s.supply = ⟨item :: t.supply.items, t.supply.ending⟩ := by
  rcases peek_cases hs with ⟨ending, t, hpeek, h⟩ | ⟨item, t, hpeek, hending, -, hsupply⟩
  · exact .inl ⟨ending, t, by rw [next, hpeek], h⟩
  · refine .inr ⟨item, { t with slot := none }, by rw [next, hpeek], by simp [IsProper], ?_⟩
    have hbehind : ({ t with slot := none } : Lookahead σ).supply = Source.supply t.source :=
      supply_of_no_slot hending rfl
    rw [hsupply, hbehind]

/-- Handing out items one by one hands out all that are to come. -/
theorem iterate_supply (hs : s.IsProper) :
    s.iterate.1 = s.supply ∧ s.iterate.2.supply = ⟨[], s.supply.ending⟩ ∧
      s.iterate.2.IsProper := by
  induction hcount : s.size using Nat.strongRecOn generalizing s with
  | ind count ih =>
    rcases next_cases hs with ⟨ending, t, hnext, hsupply, hbehind, ht⟩ |
      ⟨item, t, hnext, ht, hsupply⟩
    · rw [iterate_of_error hnext, hsupply]
      exact ⟨rfl, hbehind, ht⟩
    · have hsize : t.size < count := hcount ▸ size_next hnext
      obtain ⟨hitems, hbehind, hproper⟩ := ih t.size hsize ht rfl
      rw [iterate_of_ok hnext, hsupply, hitems]
      exact ⟨rfl, hbehind, hproper⟩

/-- A stream replies as its supply does that drops the items that look like an empty slot. -/
theorem reply_supply (hs : s.IsProper) (request : Request) :
    (s.reply request).1 = (s.supply.reply (Source.isVoid σ) request).1 ∧
      (s.reply request).2.supply = (s.supply.reply (Source.isVoid σ) request).2 ∧
      (s.reply request).2.IsProper := by
  cases request with
  | peek =>
    rcases peek_cases hs with ⟨ending, t, hpeek, hsupply, hbehind, ht⟩ |
      ⟨item, t, hpeek, hending, hslot, hsupply⟩
    · simp [reply, Supply.reply, hpeek, hsupply, hbehind, ht]
    · by_cases hvoid : Source.isVoid σ item = true
      · have hnone : t.slot = none := by simp [hslot, hvoid]
        have ht : t.IsProper := by simp [IsProper, hnone]
        simp [reply, Supply.reply, hpeek, hsupply, hvoid, supply_of_no_slot hending hnone, ht]
      · have hsome : t.slot = some item := by simp [hslot, hvoid]
        have ht : t.IsProper := by simpa [IsProper, hsome] using hvoid
        simp [reply, Supply.reply, hpeek, hsupply, hvoid, supply_of_slot hending hsome, ht]
  | next =>
    rcases next_cases hs with ⟨ending, t, hnext, hsupply, hbehind, ht⟩ |
      ⟨item, t, hnext, ht, hsupply⟩
    · simp [reply, Supply.reply, hnext, hsupply, hbehind, ht]
    · simp [reply, Supply.reply, hnext, hsupply, ht]
  | iterate =>
    obtain ⟨hitems, hbehind, ht⟩ := iterate_supply hs
    simp [reply, Supply.reply, hitems, hbehind, ht]

private theorem run_supply (hs : s.IsProper) (requests : List Request) :
    (s.run requests).1 = (s.supply.run (Source.isVoid σ) requests).1 ∧
      (s.run requests).2.supply = (s.supply.run (Source.isVoid σ) requests).2 ∧
      (s.run requests).2.IsProper := by
  induction requests generalizing s with
  | nil => exact ⟨rfl, rfl, hs⟩
  | cons request requests ih =>
    obtain ⟨hreply, hbehind, ht⟩ := reply_supply hs request
    obtain ⟨hreplies, hleft, hproper⟩ := ih ht
    rw [hbehind] at hreplies hleft
    rw [run, Supply.run_cons]
    exact ⟨by rw [hreply, hreplies], hleft, hproper⟩

/-- A stream is a faithful view of its source exactly as long as no item is shown that looks like an
empty slot. Whatever is asked of it, in whatever order, the items that it hands out, and those that
it would hand out still, come from the source in their order; they are all of its items if and only
if no such item is shown, and then the stream replies as a faithful supply does: a shown item is the
one that is handed out next. Otherwise each such item that is shown is lost. Once the stream tells
of the ending of the source, it replies with this ending for ever. -/
theorem run_faithful_iff (source : σ) (requests : List Request) :
    let supply := Source.supply source
    let replies := ((ofSource source).run requests).1
    let behind := ((ofSource source).run requests).2
    let handedOut := replies.flatMap Reply.handedOut ++ behind.iterate.1.items
    handedOut.Sublist supply.items ∧
    (handedOut = supply.items ↔
      ∀ item, .shown item ∈ replies → Source.isVoid σ item = false) ∧
    ((∀ item, .shown item ∈ replies → Source.isVoid σ item = false) →
      replies = (supply.run (fun _ ↦ false) requests).1) ∧
    replies = (supply.run (Source.isVoid σ) requests).1 ∧
    (replies.any Reply.isLast → ∀ later, ∀ reply ∈ (behind.run later).1,
      reply = .ended supply.ending ∨ reply = .rest ⟨[], supply.ending⟩) ∧
    behind.drain.1 = match supply.ending with
      | .exhausted => .ok behind.iterate.1.items
      | .failed error => .error error := by
  intro supply replies behind handedOut
  obtain ⟨hreplies, hbehind, hproper⟩ := run_supply (isProper_ofSource source) requests
  rw [supply_ofSource] at hreplies hbehind
  change replies = (supply.run (Source.isVoid σ) requests).1 at hreplies
  have hleft : behind.iterate.1 = (supply.run (Source.isVoid σ) requests).2 :=
    (iterate_supply hproper).1.trans hbehind
  have hending : behind.iterate.1.ending = supply.ending := by
    rw [hleft, Supply.run_ending]
  have hhanded : handedOut = (supply.run (Source.isVoid σ) requests).1.flatMap Reply.handedOut ++
      (supply.run (Source.isVoid σ) requests).2.items := by
    simp only [handedOut, hreplies, hleft]
  rw [← Reply.forall_loses_eq_false_iff, hhanded, hreplies]
  refine ⟨Supply.run_sublist requests, Supply.run_eq_items_iff requests, ?_, rfl, ?_, ?_⟩
  · intro h
    rw [Supply.run_eq_faithful h]
  · intro hlast later
    have hnone : behind.supply = ⟨[], supply.ending⟩ := by
      rw [hbehind, ← Supply.run_ending requests, ← Supply.run_of_isLast hlast]
    rw [(run_supply hproper later).1, hnone]
    exact (Supply.run_of_nil later).2
  · rw [drain_eq_iterate, hending]

/-- Showing an item that looks like an empty slot loses it: the item behind it is handed out in its
place. -/
theorem run_loses_shown_void :
    let source : Items Nat Unit := ⟨[.ok none, .ok (some 1)]⟩
    let replies := ((ofSource source).run [.peek, .next]).1
    let faithful := ((Source.supply source).run (fun _ ↦ false) [.peek, .next]).1
    replies = [.shown none, .handed (some 1)] ∧ faithful = [.shown none, .handed none] ∧
      replies ≠ faithful := by
  intro source replies faithful
  have hreplies : replies = [.shown none, .handed (some 1)] := rfl
  have hsupply : Source.supply source = ⟨[none, some 1], .exhausted⟩ :=
    Items.supply_eq [none, some 1] rfl
  have hfaithful : faithful = [.shown none, .handed none] := by
    simp only [faithful, hsupply]
    rfl
  refine ⟨hreplies, hfaithful, ?_⟩
  rw [hreplies, hfaithful]
  decide

end Lookahead

end VersionRange
