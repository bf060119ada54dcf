import Mathlib.Data.List.Induction
import Mathlib.Data.List.Nodup
import PostfixRegex.Proofs.Regex

/-!
# What a journal records

Any number of stages is worked on side by side, and all of them share one journal. A stage is known
by the slot that holds it, and a slot can change hands: what it holds is decided by the last time a
stage was started in it, unless that stage was dropped since. So whether an event finishes a stage,
under which name, and whether an event drops a stage that was never finished, are questions about
what happened before the event (`StageEvent.Held`). Only how long a finished stage took is said by
the event itself. The answers are stated here without the shelf and its slots, and the journal is
compared with them (`Shelf.Follows`).

Compiling an expression uses two such stages. The first one is finished before it is known whether
the text was an expression at all, so it is recorded for a text that is none, too, and no warning
results from one.

## Main definitions

* `StageEvent.Held`, `StageEvent.Leaves` — the stage in a slot, read off what happened
* `StageEvent.Finishes`, `StageEvent.Abandons` — what an event has to record
* `StageEvent.Records` — a list has the records of all events, in their order
* `Shelf.Closes` — what is recorded when the shelf is given up
* `Regex.ofPostfixAll` — texts that share one journal

## Main results

* `Shelf.Follows.handle`, `Shelf.follows_run` — one event, and all of them
* `Regex.exists_ofPostfix` — what one text records
* `Journal.recorded` — what is recorded by events and by texts
-/

namespace PostfixRegex

/-! ### What happened -/

namespace StageEvent

variable {δ : Type}

/-- The slot that an event is about. -/
def slot : StageEvent δ → String
  | start slot _ | finish slot _ | drop slot => slot

/-- The slot holds the stage that was started under this name, and `since` is what happened after
that. Nothing in it was about the slot except to finish the stage. -/
def Held (past : List (StageEvent δ)) (slot name : String) (since : List (StageEvent δ)) : Prop :=
  ∃ before, past = before ++ start slot name :: since ∧
    ∀ e ∈ since, e.slot = slot → ∃ duration, e = finish slot duration

/-- The stage as the events leave it in the slot. -/
def Leaves (past : List (StageEvent δ)) (slot : String) (s : Stage) : Prop :=
  ∃ since, Held past slot s.name since ∧
    (s.finished = true ↔ ∃ duration, finish slot duration ∈ since)

/-- The event finishes a stage, and this is the entry: the name under which the stage was started,
and the duration that the event gives. -/
def Finishes (past : List (StageEvent δ)) (e : StageEvent δ) (entry : Journal.Entry δ) : Prop :=
  ∃ slot since, e = finish slot entry.duration ∧ Held past slot entry.name since

/-- The event drops a stage that was never finished, itself or by starting another one in its place,
and this is the warning. -/
def Abandons (past : List (StageEvent δ)) (e : StageEvent δ) (warning : Message) : Prop :=
  ∃ slot name since, warning = .stageDropped name ∧
    (e = drop slot ∨ ∃ other, e = start slot other) ∧
    Held past slot name since ∧ ∀ duration, finish slot duration ∉ since

/-- The entries are those that the events give, in the order of the events and one for each event
that gives one. What an event gives can depend on what happened before. -/
def Records {β : Type} (gives : List (StageEvent δ) → StageEvent δ → β → Prop)
    (events : List (StageEvent δ)) (entries : List β) : Prop :=
  ∃ calls : List (Nat × β), entries = calls.map Prod.snd ∧
    (calls.map Prod.fst).Pairwise (· < ·) ∧
    ∀ i entry, (i, entry) ∈ calls ↔ ∃ e, events[i]? = some e ∧ gives (events.take i) e entry

variable {past since events : List (StageEvent δ)} {e : StageEvent δ} {slot name : String}
  {s : Stage}

theorem held_concat_iff :
    Held (past ++ [e]) slot name since ↔ (e = start slot name ∧ since = []) ∨
      ∃ earlier, since = earlier ++ [e] ∧
        (e.slot = slot → ∃ duration, e = finish slot duration) ∧ Held past slot name earlier := by
  constructor
  · rintro ⟨before, heq, hsince⟩
    rcases List.eq_nil_or_concat since with rfl | ⟨earlier, last, rfl⟩
    · obtain ⟨-, hlast⟩ := List.append_inj' heq rfl
      exact .inl ⟨List.head_eq_of_cons_eq hlast, rfl⟩
    · rw [List.concat_eq_append, ← List.cons_append, ← List.append_assoc] at heq
      obtain ⟨rfl, hlast⟩ := List.append_inj' heq rfl
      obtain rfl := List.head_eq_of_cons_eq hlast
      rw [List.concat_eq_append] at hsince ⊢
      exact .inr ⟨earlier, rfl, hsince e (by simp), before, rfl,
        fun x hx => hsince x (by simp [hx])⟩
  · rintro (⟨rfl, rfl⟩ | ⟨earlier, rfl, he, before, rfl, hearlier⟩)
    · exact ⟨past, rfl, fun x hx => absurd hx List.not_mem_nil⟩
    · refine ⟨before, by simp, fun x hx => ?_⟩
      rcases List.mem_append.mp hx with hx | hx
      · exact hearlier x hx
      · exact List.mem_singleton.mp hx ▸ he

/-- What is held is left in the slot, finished or not. -/
theorem Held.exists_leaves (h : Held past slot name since) :
    ∃ finished, Leaves past slot ⟨name, finished⟩ := by
  classical
  exact ⟨decide (∃ duration, finish slot duration ∈ since), since, h, decide_eq_true_iff⟩

theorem leaves_start_iff : Leaves (past ++ [start slot name]) slot s ↔ s = .start name := by
  constructor
  · rintro ⟨since, hheld, hfinished⟩
    rcases held_concat_iff.mp hheld with ⟨hstart, rfl⟩ | ⟨earlier, rfl, hslot, -⟩
    · cases s
      simp_all [Stage.start]
    · obtain ⟨_, hfinish⟩ := hslot rfl
      cases hfinish
  · rintro rfl
    exact ⟨[], held_concat_iff.mpr (.inl ⟨rfl, rfl⟩), by simp [Stage.start]⟩

theorem leaves_finish_iff {duration : δ} :
    Leaves (past ++ [finish slot duration]) slot s ↔
      ∃ before, Leaves past slot before ∧ s = { before with finished := true } := by
  constructor
  · rintro ⟨since, hheld, hfinished⟩
    rcases held_concat_iff.mp hheld with ⟨hstart, -⟩ | ⟨earlier, rfl, -, hearlier⟩
    · cases hstart
    · obtain ⟨finished, hleaves⟩ := hearlier.exists_leaves
      have hlast : s.finished = true := hfinished.mpr ⟨duration, by simp⟩
      refine ⟨_, hleaves, ?_⟩
      cases s
      simp_all
  · rintro ⟨before, ⟨earlier, hearlier, -⟩, rfl⟩
    refine ⟨earlier ++ [finish slot duration], ?_, iff_of_true rfl ⟨duration, by simp⟩⟩
    exact held_concat_iff.mpr (.inr ⟨earlier, rfl, fun _ => ⟨duration, rfl⟩, hearlier⟩)

theorem not_leaves_drop : ¬ Leaves (past ++ [drop slot]) slot s := by
  rintro ⟨since, hheld, -⟩
  rcases held_concat_iff.mp hheld with ⟨hstart, -⟩ | ⟨earlier, rfl, hslot, -⟩
  · cases hstart
  · obtain ⟨_, hfinish⟩ := hslot rfl
    cases hfinish

theorem leaves_of_slot_ne (h : e.slot ≠ slot) :
    Leaves (past ++ [e]) slot s ↔ Leaves past slot s := by
  have hfinish : ∀ duration, finish slot duration ≠ e := fun _ heq => h (heq ▸ rfl)
  constructor
  · rintro ⟨since, hheld, hfinished⟩
    rcases held_concat_iff.mp hheld with ⟨rfl, -⟩ | ⟨earlier, rfl, -, hearlier⟩
    · exact absurd rfl h
    · exact ⟨earlier, hearlier, by simpa [hfinish] using hfinished⟩
  · rintro ⟨earlier, hearlier, hfinished⟩
    refine ⟨earlier ++ [e], ?_, by simpa [hfinish] using hfinished⟩
    exact held_concat_iff.mpr (.inr ⟨earlier, rfl, fun hslot => absurd hslot h, hearlier⟩)

theorem Records.nil {β : Type} (gives : List (StageEvent δ) → StageEvent δ → β → Prop) :
    Records gives [] [] :=
  ⟨[], rfl, .nil, fun i entry => by simp⟩

/-- One event more, which gives an entry or none. -/
theorem Records.concat {β : Type} {gives : List (StageEvent δ) → StageEvent δ → β → Prop}
    {entries : List β} (h : Records gives events entries) {new : Option β}
    (hnew : ∀ entry, gives events e entry ↔ new = some entry) :
    Records gives (events ++ [e]) (entries ++ new.toList) := by
  obtain ⟨calls, rfl, hsorted, hcalls⟩ := h
  have hbound : ∀ i entry, (i, entry) ∈ calls → i < events.length := by
    intro i entry hmem
    obtain ⟨e, he, -⟩ := (hcalls i entry).mp hmem
    exact (List.getElem?_eq_some_iff.mp he).1
  refine ⟨calls ++ new.toList.map (events.length, ·), by simp [Function.comp_def], ?_,
    fun i entry => ?_⟩
  · rw [List.map_append, List.pairwise_append]
    refine ⟨hsorted, by cases new <;> simp, fun i hi k hk => ?_⟩
    obtain ⟨⟨_, entry⟩, hmem, rfl⟩ := List.mem_map.mp hi
    obtain rfl : events.length = k := by cases new <;> simp_all
    exact hbound _ entry hmem
  · have hlast : (i, entry) ∈ new.toList.map (events.length, ·) ↔
        i = events.length ∧ new = some entry := by
      cases new <;> simp [eq_comm]
    rw [List.mem_append, hlast, hcalls]
    rcases Nat.lt_trichotomy i events.length with hi | rfl | hi
    · rw [List.getElem?_append_left hi, List.take_append_of_le_length (Nat.le_of_lt hi)]
      simp [Nat.ne_of_lt hi]
    · simp [hnew]
    · simp [List.getElem?_eq_none (Nat.le_of_lt hi), Nat.ne_of_gt hi,
        List.getElem?_eq_none (show (events ++ [e]).length ≤ i by simp; omega)]

end StageEvent

/-! ### What is entered -/

variable {δ : Type}

/-- The messages that are warnings. -/
def Journal.warnings (j : Journal δ) : List Message :=
  j.log.filter (·.level = .warn)

theorem Journal.warnings_note {j : Journal δ} {messages : List Message}
    (h : ∀ m ∈ messages, m.level ≠ .warn) : (j.note messages).warnings = j.warnings := by
  have hnone : messages.filter (·.level = .warn) = [] := by simpa [List.filter_eq_nil_iff] using h
  rw [warnings, note, List.filter_append, hnone, List.append_nil]
  rfl

namespace Stage

variable (s : Stage) (duration : δ) (j : Journal δ)

@[simp] theorem finished_finish : (s.finish duration j).1.finished = true := rfl

@[simp] theorem stages_finish :
    (s.finish duration j).2.stages = j.stages ++ [⟨s.name, duration⟩] := rfl

@[simp] theorem warnings_finish : (s.finish duration j).2.warnings = j.warnings := by
  simp [finish, Journal.warnings, Message.level]

@[simp] theorem stages_drop : (s.drop j).stages = j.stages := rfl

theorem warnings_drop : (s.drop j).warnings = j.warnings ++ s.dropReport := by
  simp [drop, dropReport, Journal.note, Journal.warnings]
  cases s.finished <;> simp [Message.level]

end Stage

/-! ### Slots -/

namespace Shelf

/-- The shelf holds what the events leave in its slots. -/
structure Follows (events : List (StageEvent δ)) (shelf : Shelf δ) : Prop where
  nodup : (shelf.held.map Prod.fst).Nodup
  mem_iff : ∀ slot s, (slot, s) ∈ shelf.held ↔ StageEvent.Leaves events slot s

variable {shelf : Shelf δ} {events : List (StageEvent δ)} {slot slot' : String} {s s' : Stage}

theorem mem_put : (slot', s') ∈ shelf.put slot s ↔
    slot' = slot ∧ s' = s ∨ slot' ≠ slot ∧ (slot', s') ∈ shelf.held := by
  simp [put, remove, and_comm]

theorem mem_remove : (slot', s') ∈ shelf.remove slot ↔ slot' ≠ slot ∧ (slot', s') ∈ shelf.held := by
  simp [remove, and_comm]

theorem nodup_remove (h : (shelf.held.map Prod.fst).Nodup) (slot : String) :
    ((shelf.remove slot).map Prod.fst).Nodup :=
  (List.filter_sublist.map Prod.fst).nodup h

theorem nodup_put (h : (shelf.held.map Prod.fst).Nodup) (slot : String) (s : Stage) :
    ((shelf.put slot s).map Prod.fst).Nodup := by
  rw [put, List.map_cons, List.nodup_cons]
  exact ⟨by simp [remove], nodup_remove h slot⟩

theorem stage?_eq_some_iff (h : (shelf.held.map Prod.fst).Nodup) :
    shelf.stage? slot = some s ↔ (slot, s) ∈ shelf.held := by
  rw [stage?]
  generalize shelf.held = held at h
  induction held with
  | nil => simp
  | cons entry held ih =>
    obtain ⟨slot', s'⟩ := entry
    rw [List.map_cons, List.nodup_cons] at h
    rw [List.lookup_cons, List.mem_cons, Prod.mk.injEq]
    by_cases hslot : slot = slot'
    · subst hslot
      have hnot : (slot, s) ∉ held := fun hmem => h.1 (List.mem_map.mpr ⟨_, hmem, rfl⟩)
      simp [hnot, eq_comm]
    · rw [beq_eq_false_iff_ne.mpr hslot]
      simp [hslot, ih h.2]

theorem Follows.stage?_eq_some_iff (h : shelf.Follows events) :
    shelf.stage? slot = some s ↔ StageEvent.Leaves events slot s := by
  rw [← h.mem_iff, Shelf.stage?_eq_some_iff h.nodup]

/-- Nothing is removed from an empty slot. -/
theorem remove_eq_held (h : (shelf.held.map Prod.fst).Nodup)
    (hempty : shelf.stage? slot = none) : shelf.remove slot = shelf.held := by
  refine List.filter_eq_self.mpr fun entry hentry => ?_
  have hne : entry.1 ≠ slot := by
    rintro rfl
    cases hempty.symm.trans ((stage?_eq_some_iff h).mpr hentry)
  simpa using hne

theorem held_handle_start (shelf : Shelf δ) (slot name : String) :
    (shelf.handle (.start slot name)).held = shelf.put slot (.start name) := by
  rw [handle]
  split <;> rfl

theorem held_handle_drop (h : (shelf.held.map Prod.fst).Nodup) (slot : String) :
    (shelf.handle (.drop slot)).held = shelf.remove slot := by
  rw [handle]
  split
  · rfl
  · next hempty => exact (remove_eq_held h hempty).symm

/-- An event leaves all slots but its own as they are. -/
theorem Follows.of_slot {shelf' : Shelf δ} {e : StageEvent δ}
    (h : Follows events shelf) (hnodup : (shelf'.held.map Prod.fst).Nodup)
    (hother : ∀ slot ≠ e.slot, ∀ s, (slot, s) ∈ shelf'.held ↔ (slot, s) ∈ shelf.held)
    (hown : ∀ s, (e.slot, s) ∈ shelf'.held ↔ StageEvent.Leaves (events ++ [e]) e.slot s) :
    Follows (events ++ [e]) shelf' := by
  refine ⟨hnodup, fun slot s => ?_⟩
  by_cases hslot : slot = e.slot
  · rw [hslot]
    exact hown s
  · rw [hother slot hslot, h.mem_iff, StageEvent.leaves_of_slot_ne (Ne.symm hslot)]

/-- **One event**: a stage takes the slot, is finished in it or leaves it. -/
theorem Follows.handle (h : Follows events shelf) (e : StageEvent δ) :
    Follows (events ++ [e]) (shelf.handle e) := by
  cases e with
  | start slot name =>
    have hheld := shelf.held_handle_start slot name
    refine h.of_slot (hheld ▸ nodup_put h.nodup slot _) (fun slot' hne s => ?_) fun s => ?_
    · rw [StageEvent.slot] at hne
      simp [hheld, mem_put, hne]
    · simp [hheld, mem_put, StageEvent.slot, StageEvent.leaves_start_iff]
  | finish slot duration =>
    cases hs : shelf.stage? slot with
    | none =>
      have hnone : ∀ s, ¬ StageEvent.Leaves events slot s := fun s hleaves => by
        cases hs.symm.trans (h.stage?_eq_some_iff.mpr hleaves)
      rw [Shelf.handle, hs]
      refine h.of_slot h.nodup (fun _ _ _ => Iff.rfl) fun s => ?_
      simp [h.mem_iff, StageEvent.slot, StageEvent.leaves_finish_iff, hnone]
    | some s =>
      have hsome : ∀ s', StageEvent.Leaves events slot s' ↔ s' = s := fun s' => by
        rw [← h.stage?_eq_some_iff, hs, Option.some_inj, eq_comm]
      rw [Shelf.handle, hs]
      refine h.of_slot (nodup_put h.nodup slot _) (fun slot' hne s' => ?_) fun s' => ?_
      · rw [StageEvent.slot] at hne
        simp [mem_put, hne]
      · simp [mem_put, StageEvent.slot, StageEvent.leaves_finish_iff, hsome, Stage.finish]
  | drop slot =>
    have hheld := held_handle_drop h.nodup slot
    refine h.of_slot (hheld ▸ nodup_remove h.nodup slot) (fun slot' hne s => ?_) fun s => ?_
    · rw [StageEvent.slot] at hne
      simp [hheld, mem_remove, hne]
    · simp [hheld, mem_remove, StageEvent.slot, StageEvent.not_leaves_drop]

/-! ### What the events record -/

/-- An event enters a stage exactly when it finishes one. -/
theorem Follows.exists_finished (h : Follows events shelf) (e : StageEvent δ) :
    ∃ new : Option (Journal.Entry δ),
      (shelf.handle e).journal.stages = shelf.journal.stages ++ new.toList ∧
        ∀ entry, StageEvent.Finishes events e entry ↔ new = some entry := by
  cases e with
  | start slot name =>
    refine ⟨none, ?_, fun _ => iff_of_false ?_ (by simp)⟩
    · rw [Shelf.handle]
      split <;> simp
    · rintro ⟨_, _, heq, -⟩
      cases heq
  | finish slot duration =>
    refine ⟨(shelf.stage? slot).map fun s => ⟨s.name, duration⟩, ?_, fun entry => ?_⟩
    · rw [Shelf.handle]
      split <;> simp_all
    · rw [Option.map_eq_some_iff]
      constructor
      · rintro ⟨_, since, heq, hheld⟩
        cases heq
        obtain ⟨finished, hleaves⟩ := hheld.exists_leaves
        exact ⟨⟨entry.name, finished⟩, h.stage?_eq_some_iff.mpr hleaves, rfl⟩
      · rintro ⟨s, hs, rfl⟩
        obtain ⟨since, hheld, -⟩ := h.stage?_eq_some_iff.mp hs
        exact ⟨slot, since, rfl, hheld⟩
  | drop slot =>
    refine ⟨none, ?_, fun _ => iff_of_false ?_ (by simp)⟩
    · rw [Shelf.handle]
      split <;> simp
    · rintro ⟨_, _, heq, -⟩
      cases heq

/-- An event that empties a slot abandons the stage in it iff that one was not finished. -/
theorem Follows.abandons_iff (h : Follows events shelf) {e : StageEvent δ} {m : Message}
    (he : e = .drop slot ∨ ∃ other, e = .start slot other) :
    StageEvent.Abandons events e m ↔
      ∃ name, shelf.stage? slot = some (.start name) ∧ m = .stageDropped name := by
  simp only [h.stage?_eq_some_iff]
  constructor
  · rintro ⟨slot', name, since, rfl, he', hheld, hsince⟩
    obtain rfl : slot = slot' := by
      rcases he with rfl | ⟨_, rfl⟩ <;> rcases he' with heq | ⟨_, heq⟩ <;> cases heq <;> rfl
    exact ⟨name, ⟨since, hheld, by simp [Stage.start, hsince]⟩, rfl⟩
  · rintro ⟨name, ⟨since, hheld, hfinished⟩, rfl⟩
    exact ⟨slot, name, since, rfl, he, hheld, by simpa [Stage.start] using hfinished⟩

/-- What is reported about a stage that goes away is one warning, or nothing if it was finished. -/
theorem exists_dropReport (s : Stage) : ∃ new : Option Message, s.dropReport = new.toList ∧
    ∀ m, (∃ name, s = .start name ∧ m = .stageDropped name) ↔ new = some m := by
  obtain ⟨name, finished⟩ := s
  cases finished
  · exact ⟨some (.stageDropped name), rfl, fun m => by simp [Stage.start, eq_comm]⟩
  · exact ⟨none, rfl, fun m => by simp [Stage.start]⟩

/-- An event enters a warning exactly when it abandons a stage. -/
theorem Follows.exists_abandoned (h : Follows events shelf) (e : StageEvent δ) :
    ∃ new : Option Message,
      (shelf.handle e).journal.warnings = shelf.journal.warnings ++ new.toList ∧
        ∀ m, StageEvent.Abandons events e m ↔ new = some m := by
  have hvacated : ∀ slot, (e = .drop slot ∨ ∃ other, e = .start slot other) →
      ∃ new : Option Message, (((shelf.stage? slot).map fun s => s.drop shelf.journal).getD
        shelf.journal).warnings = shelf.journal.warnings ++ new.toList ∧
          ∀ m, StageEvent.Abandons events e m ↔ new = some m := by
    intro slot he
    simp only [h.abandons_iff he]
    cases shelf.stage? slot with
    | none => exact ⟨none, by simp, by simp⟩
    | some s =>
      obtain ⟨new, hreport, hnew⟩ := exists_dropReport s
      refine ⟨new, ?_, fun m => ?_⟩
      · rw [← hreport, Option.map_some, Option.getD_some, Stage.warnings_drop]
      · rw [← hnew]
        simp
  cases e with
  | start slot name =>
    obtain ⟨new, hwarnings, hnew⟩ := hvacated slot (.inr ⟨name, rfl⟩)
    refine ⟨new, hwarnings ▸ ?_, hnew⟩
    rw [Shelf.handle]
    split <;> simp_all
  | finish slot =>
    refine ⟨none, ?_, fun m => iff_of_false ?_ (by simp)⟩
    · rw [Shelf.handle]
      split <;> simp
    · rintro ⟨_, _, _, -, heq | ⟨_, heq⟩, -⟩ <;> cases heq
  | drop slot =>
    obtain ⟨new, hwarnings, hnew⟩ := hvacated slot (.inl rfl)
    refine ⟨new, hwarnings ▸ ?_, hnew⟩
    rw [Shelf.handle]
    split <;> simp_all

/-- A shelf that is empty in the beginning, after the events. -/
def run (events : List (StageEvent δ)) : Shelf δ :=
  events.foldl handle {}

theorem run_concat (events : List (StageEvent δ)) (e : StageEvent δ) :
    run (events ++ [e]) = (run events).handle e := by
  rw [run, List.foldl_append]
  rfl

/-- **All events.** -/
theorem follows_run (events : List (StageEvent δ)) : Follows events (run events) := by
  induction events using List.reverseRecOn with
  | nil => exact ⟨List.nodup_nil, fun slot s => by simp [run, StageEvent.Leaves, StageEvent.Held]⟩
  | append_singleton events e ih =>
    rw [run_concat]
    exact ih.handle e

theorem records_stages_run (events : List (StageEvent δ)) :
    StageEvent.Records StageEvent.Finishes events (run events).journal.stages := by
  induction events using List.reverseRecOn with
  | nil => exact .nil _
  | append_singleton events e ih =>
    obtain ⟨new, hstages, hnew⟩ := (follows_run events).exists_finished e
    rw [run_concat, hstages]
    exact ih.concat hnew

theorem records_warnings_run (events : List (StageEvent δ)) :
    StageEvent.Records StageEvent.Abandons events (run events).journal.warnings := by
  induction events using List.reverseRecOn with
  | nil => exact .nil _
  | append_singleton events e ih =>
    obtain ⟨new, hwarnings, hnew⟩ := (follows_run events).exists_abandoned e
    rw [run_concat, hwarnings]
    exact ih.concat hnew

/-- What is recorded stays as it is: later events add to the end. -/
theorem prefix_stages_run (events more : List (StageEvent δ)) :
    (run events).journal.stages <+: (run (events ++ more)).journal.stages := by
  induction more using List.reverseRecOn with
  | nil => rw [List.append_nil]
  | append_singleton more e ih =>
    obtain ⟨new, hstages, -⟩ := (follows_run (events ++ more)).exists_finished e
    rw [← List.append_assoc, run_concat, hstages]
    exact ih.trans (List.prefix_append _ _)

/-! ### The end of a shelf -/

theorem stages_foldr_drop (held : List (String × Stage)) (j : Journal δ) :
    (held.foldr (fun entry j => entry.2.drop j) j).stages = j.stages := by
  induction held with
  | nil => rfl
  | cons entry held ih => rw [List.foldr_cons, Stage.stages_drop, ih]

theorem warnings_foldr_drop (held : List (String × Stage)) (j : Journal δ) :
    (held.foldr (fun entry j => entry.2.drop j) j).warnings = j.warnings ++
      (held.reverse.filter fun entry => !entry.2.finished).map fun entry =>
        .stageDropped entry.2.name := by
  induction held with
  | nil => simp
  | cons entry held ih =>
    rw [List.foldr_cons, Stage.warnings_drop, ih, List.reverse_cons, List.filter_append,
      List.map_append, ← List.append_assoc, Stage.dropReport]
    cases hfinished : entry.2.finished <;> simp [hfinished]

/-- When the shelf is given up, the entries stay, and there is one warning for each slot with a
stage that was never finished. -/
structure Closes (events : List (StageEvent δ)) (shelf : Shelf δ) : Prop where
  stages_eq : shelf.close.stages = shelf.journal.stages
  warnings_eq : ∃ left : List (String × String),
    shelf.close.warnings = shelf.journal.warnings ++ left.map (fun entry => .stageDropped entry.2) ∧
      (left.map Prod.fst).Nodup ∧
      ∀ slot name, (slot, name) ∈ left ↔
        ∃ since, StageEvent.Held events slot name since ∧
          ∀ duration, StageEvent.finish slot duration ∉ since

theorem Follows.closes (h : Follows events shelf) : shelf.Closes events := by
  refine ⟨stages_foldr_drop shelf.held shelf.journal,
    (shelf.held.reverse.filter fun entry => !entry.2.finished).map fun entry =>
      (entry.1, entry.2.name), ?_, ?_, fun slot name => ?_⟩
  · rw [List.map_map]
    exact warnings_foldr_drop shelf.held shelf.journal
  · rw [List.map_map]
    refine List.Nodup.sublist (List.filter_sublist.map Prod.fst) ?_
    rw [List.map_reverse]
    exact List.nodup_reverse.mpr h.nodup
  · have hleft : (slot, name) ∈ ((shelf.held.reverse.filter fun entry => !entry.2.finished).map
        fun entry => (entry.1, entry.2.name)) ↔ (slot, Stage.start name) ∈ shelf.held := by
      simp only [List.mem_map, List.mem_filter, List.mem_reverse, Prod.mk.injEq]
      constructor
      · rintro ⟨⟨_, ⟨_, finished⟩⟩, ⟨hmem, hfinished⟩, rfl, rfl⟩
        obtain rfl : finished = false := by simpa using hfinished
        exact hmem
      · exact fun hmem => ⟨_, ⟨hmem, rfl⟩, rfl, rfl⟩
    rw [hleft, h.mem_iff]
    simp [StageEvent.Leaves, Stage.start]

end Shelf

/-! ### Texts that share a journal -/

namespace Regex

/-- The stages of a text that was compiled or not. -/
def stagesOf (took : Durations δ) : Except CompileError Regex → List (Journal.Entry δ)
  | .ok _ => [⟨"compile", took.compile⟩, ⟨"determinize", took.determinize⟩]
  | .error _ => [⟨"compile", took.compile⟩]

/-- Compiles and determinizes texts one after the other and records all of their stages. -/
def ofPostfixAll : List (String × Durations δ) → Journal δ →
    Checked (List (Except CompileError Regex) × Journal δ)
  | [], j => return ([], j)
  | (text, took) :: texts, j => do
    let (result, j) ← ofPostfix text took j
    let (results, j) ← ofPostfixAll texts j
    return (result :: results, j)

theorem level_report (c : Compilation) (text : String) :
    ∀ m ∈ c.report text, m.level ≠ .warn := by
  rw [Compilation.report]
  split <;> simp [finishReport, Message.level]

theorem level_determinizeReport (n : Nfa) (d : Option Dfa) :
    ∀ m ∈ determinizeReport n d, m.level ≠ .warn := by
  cases d <;> simp [determinizeReport, Message.level]

/-- **One text.** It has the same result however long it takes and whatever was recorded before, its
stages are entered, and none of them is given up. -/
theorem exists_ofPostfix (text : String) : ∃ result, ∀ (took : Durations δ) j,
    ∃ j', ofPostfix text took j = .ok (result, j') ∧
      j'.stages = j.stages ++ stagesOf took result ∧ j'.warnings = j.warnings := by
  obtain ⟨compilation, hcompile, houtcome⟩ := compile_outcome text {}
  rcases houtcome with ⟨_, n, _, hresult, hne, _⟩ | ⟨_, error, hresult⟩
  · refine ⟨.ok ⟨n, n.numbered compilation.supply.next⟩, fun took j => ?_⟩
    simp only [ofPostfix, hcompile, Checked.ok_bind, hresult, n.determinize_eq _ hne]
    refine ⟨_, rfl, ?_, ?_⟩
    · simp [Journal.note, Stage.start, stagesOf]
    · simp [Stage.warnings_drop, Stage.dropReport, Journal.warnings_note (level_report _ _),
        Journal.warnings_note (level_determinizeReport _ _)]
  · refine ⟨.error error, fun took j => ?_⟩
    simp only [ofPostfix, hcompile, Checked.ok_bind, hresult]
    refine ⟨_, rfl, ?_, ?_⟩
    · simp [Journal.note, Stage.start, stagesOf]
    · simp [Stage.warnings_drop, Stage.dropReport, Journal.warnings_note (level_report _ _)]

/-- **Texts one after the other.** -/
theorem exists_ofPostfixAll (texts : List (String × Durations δ)) (j : Journal δ) :
    ∃ results j', ofPostfixAll texts j = .ok (results, j') ∧
      List.Forall₂ (fun text result => ∀ (took : Durations δ) j,
        ∃ j', ofPostfix text.1 took j = .ok (result, j')) texts results ∧
      j'.stages = j.stages ++ (List.zipWith (fun text => stagesOf text.2) texts results).flatten ∧
      j'.warnings = j.warnings := by
  induction texts generalizing j with
  | nil => exact ⟨[], j, rfl, .nil, by simp, rfl⟩
  | cons entry texts ih =>
    obtain ⟨text, took⟩ := entry
    obtain ⟨result, hresult⟩ := exists_ofPostfix text
    obtain ⟨j₁, hfirst, hstages₁, hwarnings₁⟩ := hresult took j
    obtain ⟨results, j', hall, hresults, hstages, hwarnings⟩ := ih j₁
    refine ⟨result :: results, j', ?_, .cons (fun took j => ?_) hresults, ?_,
      hwarnings.trans hwarnings₁⟩
    · rw [ofPostfixAll, hfirst, Checked.ok_bind]
      simp only [hall, Checked.ok_bind]
      rfl
    · obtain ⟨j', hok, -⟩ := hresult took j
      exact ⟨j', hok⟩
    · rw [hstages, hstages₁, List.zipWith_cons_cons, List.flatten_cons, List.append_assoc]

end Regex

/-- **What is recorded.** After any events the entries in the journal are those of the stages that
were finished, in the order of the events that finished them, each with the name under which the
stage was started and the duration that the event gives. The warnings are those about stages that
were dropped without ever having been finished. Later events change no entry, and what is left on
the shelf at the end is reported in the same way. Hence texts that share a journal enter `compile`
each, and `determinize` if they are expressions, with their durations, and none of them leads to a
warning. -/
theorem Journal.recorded (events more : List (StageEvent δ))
    (texts : List (String × Regex.Durations δ)) (j : Journal δ) :
    StageEvent.Records StageEvent.Finishes events (Shelf.run events).journal.stages ∧
      StageEvent.Records StageEvent.Abandons events (Shelf.run events).journal.warnings ∧
      (Shelf.run events).journal.stages <+: (Shelf.run (events ++ more)).journal.stages ∧
      (Shelf.run events).Closes events ∧
      ∃ results j', Regex.ofPostfixAll texts j = .ok (results, j') ∧
        List.Forall₂ (fun text result => ∀ (took : Regex.Durations δ) j,
          ∃ j', Regex.ofPostfix text.1 took j = .ok (result, j')) texts results ∧
        j'.stages = j.stages ++
          (List.zipWith (fun text => Regex.stagesOf text.2) texts results).flatten ∧
        j'.warnings = j.warnings :=
  ⟨Shelf.records_stages_run events, Shelf.records_warnings_run events,
    Shelf.prefix_stages_run events more, (Shelf.follows_run events).closes,
    Regex.exists_ofPostfixAll texts j⟩

end PostfixRegex
