import ThemeTemplates.Files.Edit
import ThemeTemplates.Registry

/-! # No request is lost

Anyone may ask for a rebuild at any time, and the files may change at any time. One worker takes a
request out of the queue and then makes a rebuild, which looks at the files some number of times.

* `RebuildQueue.Step` is one event, `RebuildQueue.Run` a sequence of events in any order that is
  possible.
* `Run.queued_add`: the requests that found the slot free are those that were taken and the one that
  waits.
* `Run.no_request_lost`: a request that no rebuild has answered yet waits in the queue. So once the
  queue is empty and the worker idle, each request was followed by a rebuild that saw all changes made
  before it.
-/

namespace ThemeTemplates

set_option autoImplicit false

/-! ## Sending -/

/-- How sending to the queue ends. -/
inductive Sent
  | queued
  | full
  /-- The worker is gone. -/
  | disconnected
  deriving DecidableEq, Repr

/-- What someone who asks is told. -/
def Sent.answer : Sent → Bool
  | .queued => true
  | .full => true
  | .disconnected => false

namespace Queue

/-- How many requests wait. -/
def waiting (q : Queue) : Nat := q.pending.toNat

/-- Puts a request in the slot, if that is free. -/
def trySend (q : Queue) : Sent × Queue :=
  if q.pending then (.full, q) else (.queued, ⟨true⟩)

theorem waiting_le_one (q : Queue) : q.waiting ≤ 1 := Bool.toNat_le q.pending

theorem trySend_snd (q : Queue) : q.trySend.2 = q.request := by
  obtain ⟨_ | _⟩ := q <;> rfl

theorem answer_trySend (q : Queue) : q.trySend.1.answer = true := by
  obtain ⟨_ | _⟩ := q <;> rfl

theorem take?_eq_some {q q' : Queue} (h : q.take? = some q') :
    q.pending = true ∧ q'.pending = false := by
  unfold take? at h
  split at h
  next hp =>
    cases h
    exact ⟨hp, rfl⟩
  next => cases h

end Queue

/-- The files after some edits. -/
def FileSystem.editAll (fs : FileSystem) (es : List Edit) : FileSystem := es.foldl edit fs

namespace RebuildQueue

/-! ## Events -/

inductive Event
  | write (e : Edit)
  | request (who : Nat) (sent : Sent)
  /-- The worker takes a request. Its rebuild starts with that. -/
  | start
  /-- The rebuild looks at the files and finds these. -/
  | read (files : FileSystem)
  | finish

namespace Event

def edit? : Event → Option Edit
  | .write e => some e
  | _ => none

/-- Whether this is a request, and the one who asked was told that there will be a rebuild. -/
def isAccepted : Event → Bool
  | .request _ sent => sent.answer
  | _ => false

/-- Whether this is a request that took the slot. -/
def isQueued : Event → Bool
  | .request _ sent => sent == .queued
  | _ => false

def isStart : Event → Bool
  | .start => true
  | _ => false

end Event

def edits (es : List Event) : List Edit := es.filterMap Event.edit?

def accepted (es : List Event) : Nat := es.countP Event.isAccepted

def queued (es : List Event) : Nat := es.countP Event.isQueued

def starts (es : List Event) : Nat := es.countP Event.isStart

@[simp] theorem edits_append (es fs : List Event) : edits (es ++ fs) = edits es ++ edits fs :=
  List.filterMap_append

@[simp] theorem queued_append (es fs : List Event) : queued (es ++ fs) = queued es + queued fs :=
  List.countP_append

@[simp] theorem starts_append (es fs : List Event) : starts (es ++ fs) = starts es + starts fs :=
  List.countP_append

inductive Worker
  | idle
  | rebuilding
  deriving DecidableEq, Repr

structure State where
  files : FileSystem
  queue : Queue
  worker : Worker

def State.initial (files : FileSystem) : State := ⟨files, .empty, .idle⟩

inductive Step : State → Event → State → Prop
  | write (s : State) (e : Edit) : Step s (.write e) { s with files := s.files.edit e }
  | request (s : State) (who : Nat) :
    Step s (.request who s.queue.trySend.1) { s with queue := s.queue.trySend.2 }
  | start (s : State) (q : Queue) (idle : s.worker = .idle) (taken : s.queue.take? = some q) :
    Step s .start { s with queue := q, worker := .rebuilding }
  | read (s : State) (busy : s.worker = .rebuilding) : Step s (.read s.files) s
  | finish (s : State) (busy : s.worker = .rebuilding) : Step s .finish { s with worker := .idle }

inductive Run : State → List Event → State → Prop
  | nil (s : State) : Run s [] s
  | cons {s t u : State} {e : Event} {es : List Event} :
    Step s e t → Run t es u → Run s (e :: es) u

/-! ## One event -/

variable {s t u : State} {e : Event} {es : List Event}

theorem Step.files_eq (h : Step s e t) : t.files = s.files.editAll (edits [e]) := by
  cases h <;> rfl

/-- A request that takes the slot is one more, and a start takes one out. -/
theorem Step.queued_add (h : Step s e t) :
    queued [e] + s.queue.waiting = starts [e] + t.queue.waiting := by
  cases h with
  | write => rfl
  | request who =>
    obtain ⟨files, ⟨_ | _⟩, worker⟩ := s <;> rfl
  | start q idle taken =>
    obtain ⟨hs, hq⟩ := Queue.take?_eq_some taken
    simp [queued, starts, Event.isQueued, Event.isStart, Queue.waiting, hs, hq]
  | read => rfl
  | finish => rfl

theorem Step.accepted_of_request {who : Nat} {sent : Sent} (h : Step s (.request who sent) t) :
    sent.answer = true ∧ t.queue.pending = true := by
  cases h
  refine ⟨Queue.answer_trySend s.queue, ?_⟩
  rw [Queue.trySend_snd]
  rfl

/-- Only a start empties the slot. -/
theorem Step.pending (h : Step s e t) (he : e ≠ .start) (hp : s.queue.pending = true) :
    t.queue.pending = true := by
  cases h with
  | write => exact hp
  | request who =>
    rw [Queue.trySend_snd]
    rfl
  | start => exact absurd rfl he
  | read => exact hp
  | finish => exact hp

/-- Only the end of its rebuild makes the worker idle. -/
theorem Step.rebuilding (h : Step s e t) (he : e ≠ .finish) (hw : s.worker = .rebuilding) :
    t.worker = .rebuilding := by
  cases h with
  | write => exact hw
  | request => exact hw
  | start => rfl
  | read => exact hw
  | finish => exact absurd rfl he

/-! ## Runs -/

namespace Run

theorem exists_of_append {es fs : List Event} (h : Run s (es ++ fs) u) :
    ∃ t, Run s es t ∧ Run t fs u := by
  induction es generalizing s with
  | nil => exact ⟨s, .nil s, h⟩
  | cons e es ih =>
    cases h with
    | cons h1 h2 =>
      obtain ⟨t, h3, h4⟩ := ih h2
      exact ⟨t, .cons h1 h3, h4⟩

theorem files_eq (h : Run s es t) : t.files = s.files.editAll (edits es) := by
  induction h with
  | nil s => rfl
  | @cons s t u e es h1 h2 ih =>
    have h3 := edits_append [e] es
    rw [List.singleton_append] at h3
    rw [ih, h1.files_eq, h3]
    exact (List.foldl_append).symm

theorem queued_add (h : Run s es t) :
    queued es + s.queue.waiting = starts es + t.queue.waiting := by
  induction h with
  | nil s => rfl
  | @cons s t u e es h1 h2 ih =>
    have h3 := queued_append [e] es
    have h4 := starts_append [e] es
    rw [List.singleton_append] at h3 h4
    have h5 := h1.queued_add
    omega

theorem pending (h : Run s es t) (hs : .start ∉ es) (hp : s.queue.pending = true) :
    t.queue.pending = true := by
  induction h with
  | nil s => exact hp
  | cons h1 h2 ih =>
    rw [List.mem_cons, not_or] at hs
    exact ih hs.2 (h1.pending (Ne.symm hs.1) hp)

theorem rebuilding (h : Run s es t) (hf : .finish ∉ es) (hw : s.worker = .rebuilding) :
    t.worker = .rebuilding := by
  induction h with
  | nil s => exact hw
  | cons h1 h2 ih =>
    rw [List.mem_cons, not_or] at hf
    exact ih hf.2 (h1.rebuilding (Ne.symm hf.1) hw)

/-- A request waits as long as the worker takes none. -/
theorem pending_of_request {before after : List Event} {who : Nat} {sent : Sent}
    (h : Run s (before ++ .request who sent :: after) t) (hs : .start ∉ after) :
    t.queue.pending = true := by
  obtain ⟨u, -, h1⟩ := h.exists_of_append
  cases h1 with
  | cons h2 h3 => exact h3.pending hs h2.accepted_of_request.2

theorem answer_of_mem {who : Nat} {sent : Sent} (h : Run s es t) (hm : .request who sent ∈ es) :
    sent.answer = true := by
  obtain ⟨before, after, rfl⟩ := List.append_of_mem hm
  obtain ⟨u, -, h1⟩ := h.exists_of_append
  cases h1 with
  | cons h2 h3 => exact h2.accepted_of_request.1

end Run

theorem queued_le_accepted (es : List Event) : queued es ≤ accepted es := by
  apply List.countP_mono_left
  intro e _ he
  cases e with
  | request who sent =>
    have h := eq_of_beq he
    rw [h]
    rfl
  | _ => cases he

theorem starts_eq_zero {es : List Event} (h : .start ∉ es) : starts es = 0 := by
  apply List.countP_eq_zero.2
  intro e he hs
  cases e with
  | start => exact h he
  | _ => cases hs

/-- The last start of some events. -/
theorem exists_last_start {es : List Event} (h : .start ∈ es) :
    ∃ before after, es = before ++ .start :: after ∧ .start ∉ after := by
  obtain ⟨after, before, e, hn⟩ := List.eq_append_cons_of_mem (List.mem_reverse.2 h)
  refine ⟨before.reverse, after.reverse, ?_, by simpa using hn⟩
  have h1 := congrArg List.reverse e
  simpa using h1

/-! ## Rebuilds and the requests before them -/

namespace Run

/-- A rebuild sees all edits that were made before it looks. -/
theorem seen_eq {before after : List Event} {seen : FileSystem}
    (h : Run s (before ++ .read seen :: after) t) : seen = s.files.editAll (edits before) := by
  obtain ⟨u, h1, h2⟩ := h.exists_of_append
  cases h2 with
  | cons h3 h4 =>
    cases h3
    exact h1.files_eq

/-- Once the queue is empty and the worker idle, the last rebuild came after every request. -/
theorem exists_rebuild {before after : List Event} {who : Nat} {sent : Sent}
    (h : Run s (before ++ .request who sent :: after) t) (hp : t.queue.pending = false)
    (hw : t.worker = .idle) :
    ∃ waiting during, after = waiting ++ .start :: during ∧
      (∀ e ∈ during, e.isStart = false ∧ e.isAccepted = false) ∧ .finish ∈ during := by
  have hmem : .start ∈ after := by
    apply Classical.byContradiction
    intro hn
    rw [h.pending_of_request hn] at hp
    cases hp
  obtain ⟨waiting, during, rfl, hn⟩ := exists_last_start hmem
  obtain ⟨u, -, h1⟩ := h.exists_of_append
  cases h1 with
  | cons h2 h3 =>
    obtain ⟨v, -, h4⟩ := h3.exists_of_append
    cases h4 with
    | @cons _ w _ _ _ h5 h6 =>
      refine ⟨waiting, during, rfl, ?_, ?_⟩
      · intro e he
        constructor
        · cases e with
          | start => exact absurd he hn
          | _ => rfl
        · cases e with
          | request who' sent' =>
            -- a request behind the last start would still wait
            obtain ⟨a, b, rfl⟩ := List.append_of_mem he
            have hb : .start ∉ b := by
              intro hb
              exact hn (by simp [hb])
            rw [h6.pending_of_request hb] at hp
            cases hp
          | _ => rfl
      · apply Classical.byContradiction
        intro hf
        have h7 : w.worker = .rebuilding := by
          cases h5
          rfl
        rw [h6.rebuilding hf h7] at hw
        cases hw

/-- All requests between one start and the next take the slot at most once, so they add at most one
rebuild to those that later requests account for. -/
theorem starts_le_of_start {a b c : List Event} (h : Run s (a ++ .start :: (b ++ c)) t)
    (hb : .start ∉ b) : queued b ≤ 1 ∧ starts c ≤ accepted c + min 1 (accepted b) := by
  obtain ⟨u, -, h1⟩ := h.exists_of_append
  cases h1 with
  | @cons _ v _ _ _ h2 h3 =>
    obtain ⟨w, h4, h5⟩ := h3.exists_of_append
    have hv : v.queue.waiting = 0 := by
      cases h2 with
      | start q idle taken => simp [Queue.waiting, (Queue.take?_eq_some taken).2]
    have e1 := h4.queued_add
    have e2 := h5.queued_add
    have h6 := starts_eq_zero hb
    have h7 := w.queue.waiting_le_one
    have h8 := queued_le_accepted b
    have h9 := queued_le_accepted c
    omega

/-- In every order of events: no more than one request waits, each is answered, and it waits until the
worker takes one. If none waits and the worker is idle, the last rebuild started after every request
and saw every edit made before it. There are no more rebuilds than requests, and all requests between
one start and the next cause at most one. -/
theorem no_request_lost {files : FileSystem} {es : List Event} {s : State}
    (h : Run (.initial files) es s) :
    (queued es = starts es + s.queue.waiting ∧ s.queue.waiting ≤ 1) ∧
    (∀ before who sent after, es = before ++ .request who sent :: after →
      sent.answer = true ∧ (.start ∉ after → s.queue.pending = true)) ∧
    (s.queue.pending = false → s.worker = .idle →
      ∀ before who sent after, es = before ++ .request who sent :: after →
        ∃ waiting during, after = waiting ++ .start :: during ∧
          (∀ e ∈ during, e.isStart = false ∧ e.isAccepted = false) ∧ .finish ∈ during ∧
          ∀ a seen b, during = a ++ .read seen :: b →
            seen = (files.editAll (edits before)).editAll (edits (waiting ++ .start :: a))) ∧
    starts es ≤ accepted es ∧
    (∀ a b c, es = a ++ .start :: (b ++ c) → .start ∉ b →
      queued b ≤ 1 ∧ starts c ≤ accepted c + min 1 (accepted b)) := by
  have hq : queued es = starts es + s.queue.waiting := h.queued_add
  refine ⟨⟨hq, s.queue.waiting_le_one⟩, ?_, ?_, ?_, ?_⟩
  · intro before who sent after e
    subst e
    have hm : .request who sent ∈ before ++ .request who sent :: after := by simp
    exact ⟨h.answer_of_mem hm, h.pending_of_request⟩
  · intro hp hw before who sent after e
    subst e
    obtain ⟨waiting, during, rfl, hd, hf⟩ := h.exists_rebuild hp hw
    refine ⟨waiting, during, rfl, hd, hf, ?_⟩
    intro a seen b e
    subst e
    have h1 : Run (.initial files)
        ((before ++ .request who sent :: (waiting ++ .start :: a)) ++ .read seen :: b) s := by
      simpa using h
    rw [h1.seen_eq, edits_append]
    exact List.foldl_append
  · have h1 := queued_le_accepted es
    omega
  · intro a b c e hb
    subst e
    exact h.starts_le_of_start hb

/-- Two requests come while the first rebuild runs, with an edit between them. The second finds the
slot taken, and one more rebuild answers both. -/
def rush (e : Edit) : List Event :=
  [.request 0 .queued, .start, .read .empty, .request 1 .queued, .write e, .request 2 .full, .finish,
    .start, .read (FileSystem.empty.edit e), .finish]

theorem run_rush (e : Edit) :
    Run (.initial .empty) (rush e) ⟨FileSystem.empty.edit e, .empty, .idle⟩ :=
  .cons (.request _ 0) <| .cons (.start _ .empty rfl rfl) <| .cons (.read _ rfl) <|
    .cons (.request _ 1) <| .cons (.write _ e) <| .cons (.request _ 2) <| .cons (.finish _ rfl) <|
      .cons (.start _ .empty rfl rfl) <| .cons (.read _ rfl) <| .cons (.finish _ rfl) <| .nil _

theorem no_request_lost_rush :
    let es := rush (.makeDirectory [0x61])
    starts es = 2 ∧ accepted es = 3 ∧ starts es ≤ accepted es ∧
      ∀ before who sent after, es = before ++ .request who sent :: after →
        ∃ waiting during, after = waiting ++ .start :: during ∧
          (∀ e ∈ during, e.isStart = false ∧ e.isAccepted = false) ∧ .finish ∈ during ∧
          ∀ a seen b, during = a ++ .read seen :: b →
            seen = (FileSystem.empty.editAll (edits before)).editAll
              (edits (waiting ++ .start :: a)) := by
  have h := no_request_lost (run_rush (.makeDirectory [0x61]))
  exact ⟨rfl, rfl, h.2.2.2.1, h.2.2.1 rfl rfl⟩

/-- A request of a registry whose worker is idle is such a run, and the rebuild is made between its
start and its end. -/
theorem run_request {Context : Type} (r : Registry Context) {q : Queue} (hq : r.queue = some q)
    (files : FileSystem) (answer : Except String String) (who : Nat) :
    Run ⟨files, q, .idle⟩ [.request who q.trySend.1, .start, .read files, .finish]
        ⟨files, .empty, .idle⟩ ∧
      r.request files answer =
        (({ r with queue := some .empty }.regenerate files answer).1, .ok ()) := by
  constructor
  · have taken : q.trySend.2.take? = some .empty := by rw [Queue.trySend_snd, Queue.take?_request]
    exact .cons (.request _ who) <| .cons (.start _ .empty rfl taken) <| .cons (.read _ rfl) <|
      .cons (.finish _ rfl) <| .nil _
  · rw [Registry.request, hq]
    rfl

end Run

end RebuildQueue

end ThemeTemplates
