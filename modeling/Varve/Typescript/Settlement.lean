import Varve.Typescript.Ledger

/-!
# Settlement of the client's promises

Over every order of events the pending requests are within their limits, every request is settled
once and not later than its timer or the end of the connection, and a mutation that was sent fails
without doubt only on an answer of the server.
-/

namespace Varve.Typescript

variable {Params : Type} {cfg : Config Params} {c c' : Client}

-- The connection and the close promise

/-- The connection. `lost` says that the close promise has been left unsettled. -/
structure Phase (lost : Prop) (c : Client) : Prop where
  listening : c.listening = true ↔ c.state ≠ .closed
  idle : c.state ≠ .opened → c.pending = []
  starting : c.startup.isSome = true → c.state = .connecting ∨ c.state = .authenticating
  returned : c.returned = true → c.state = .opened ∨ c.state = .closing ∨ c.state = .closed
  timer : c.closeTimer = true ↔ c.state = .closing
  closing : c.state = .closing → c.closeResolve = true ∧ c.closePromise = true
  promised : c.closePromise = true → c.state = .closing ∨ c.state = .closed
  waiting : c.state ≠ .closed → c.settlements .close = 0
  unpromised : c.closePromise = false → c.settlements .close = 0
  settled : c.state = .closed → c.closePromise = true → ¬lost → c.settlements .close = 1
  forgotten : lost → c.state = .closed ∧ c.closePromise = true ∧ c.settlements .close = 0

/-- What `Phase` reads besides the pending requests. -/
def Client.view (c : Client) :=
  (c.state, c.listening, c.startup, c.returned, c.closeTimer, c.closeResolve, c.closePromise,
    c.settlements .close)

namespace Client

theorem view_finish (c : Client) (p : Pending) (o : Outcome) : (c.finish p o).view = c.view := by
  have hcount : (c.finish p o).settlements .close = (c.removePending p).settlements .close :=
    settlements_of_other rfl (by simp)
  rw [view, hcount]
  simp only [finish, settle, removePending]
  split <;> rfl

theorem view_rejectAll (cause : Failure) (c : Client) : (c.rejectAll cause).view = c.view := by
  have hfold (ps : List Pending) (d : Client) : (ps.foldl (interrupt cause) d).view = d.view := by
    induction ps generalizing d with
    | nil => rfl
    | cons p ps ih => exact (ih _).trans (view_finish d p _)
  exact hfold c.pending c

theorem pending_rejectAll (cause : Failure) (c : Client) : (c.rejectAll cause).pending = [] := by
  have hfold (ps : List Pending) (d : Client) :
      (ps.foldl (interrupt cause) d).pending = d.pending.filter fun q => ∀ p ∈ ps, q.id ≠ p.id := by
    induction ps generalizing d with
    | nil => simp
    | cons p ps ih =>
      rw [List.foldl_cons, ih, pending_interrupt, List.filter_filter]
      refine List.filter_congr fun q _ => ?_
      simp [Bool.and_comm]
  rw [rejectAll, hfold, List.filter_eq_nil_iff]
  intro q hq hall
  exact of_decide_eq_true hall q hq rfl

end Client

namespace Phase

variable {lost : Prop}

theorem congr {lost' : Prop} (h : Phase lost c) (hl : lost' ↔ lost) : Phase lost' c := by
  rwa [propext hl]

theorem keep (h : Phase lost c) (hv : c'.view = c.view)
    (hp : c'.state ≠ .opened → c'.pending = []) : Phase lost c' := by
  simp only [Client.view, Prod.mk.injEq] at hv
  obtain ⟨hs, hl, hst, hr, ht, hcr, hcp, hcount⟩ := hv
  constructor
  case idle => exact hp
  all_goals simp only [hs, hl, hst, hr, ht, hcr, hcp, hcount]
  exacts [h.listening, h.starting, h.returned, h.timer, h.closing, h.promised, h.waiting,
    h.unpromised, h.settled, h.forgotten]

theorem of_closed (hs : c.state = .closed) (hl : c.listening = false) (hp : c.pending = [])
    (hst : c.startup = none) (ht : c.closeTimer = false)
    (hu : c.closePromise = false → c.settlements .close = 0)
    (hd : c.closePromise = true → ¬lost → c.settlements .close = 1)
    (hf : lost → c.closePromise = true ∧ c.settlements .close = 0) : Phase lost c := by
  constructor <;> simp_all

theorem failConnection (h : Phase lost c) (error : Failure) :
    Phase (lost ∨ c.state = .closing) (c.failConnection error) := by
  rw [Client.failConnection]
  split
  · rename_i hs
    exact h.congr (by simp [hs])
  · rename_i hs
    have hlost : ¬lost := fun hlost => hs (h.forgotten hlost).1
    have hstart : (Client.rejectStartup error { c with state := .closed }).view =
        (.closed, c.listening, none, c.returned, c.closeTimer, c.closeResolve, c.closePromise,
          c.settlements .close) := by
      rw [Client.rejectStartup]
      split
      · rename_i hnone
        have hnone : c.startup = none := hnone
        simp only [Client.view, hnone]
        rfl
      · simp only [Client.view, Prod.mk.injEq]
        exact ⟨rfl, rfl, rfl, rfl, rfl, rfl, rfl,
          Client.settlements_of_other (c := c) rfl (by simp)⟩
    rw [← Client.view_rejectAll error] at hstart
    have hpending := Client.pending_rejectAll error (Client.rejectStartup error
        { c with state := .closed })
    generalize Client.rejectAll error (Client.rejectStartup error { c with state := .closed }) = d
      at hstart hpending
    simp only [Client.view, Prod.mk.injEq] at hstart
    obtain ⟨hst, -, hsu, -, -, -, hcp, hcount⟩ := hstart
    have hzero : d.settlements .close = 0 := hcount.trans (h.waiting hs)
    refine of_closed hst rfl hpending hsu rfl (fun _ => hzero) (fun hp hl => ?_) fun hl => ?_
    · -- a close promise without a loss would have been closing
      rcases h.promised (hcp ▸ hp) with hc | hc
      · exact absurd (.inr hc) hl
      · exact absurd hc hs
    · exact ⟨hcp.trans (h.closing (hl.resolve_left hlost)).2, hzero⟩

theorem failConnection_of_ne (h : Phase lost c) (hs : c.state ≠ .closing) (error : Failure) :
    Phase lost (c.failConnection error) :=
  (h.failConnection error).congr (by simp [hs])

theorem closeSocket (h : Phase lost c) (reason : String) : Phase lost (c.closeSocket reason) := by
  refine h.keep ?_ h.idle
  simp [Client.view, Client.closeSocket, Client.settlements, Effect.settles]

theorem fail (h : Phase lost c) (error : Failure) :
    Phase (lost ∨ c.state = .closing) (c.fail error) :=
  (h.failConnection error).closeSocket _

theorem fail_of_ne (h : Phase lost c) (hs : c.state ≠ .closing) (error : Failure) :
    Phase lost (c.fail error) :=
  (h.failConnection_of_ne hs error).closeSocket _

theorem finalize (h : Phase lost c) (hs : c.state = .closing) (o : Outcome) :
    Phase lost (c.finalizeClosed.settle .close o) := by
  have hcount : (c.finalizeClosed.settle .close o).settlements .close = 1 := by
    rw [Client.settlements_of_log (c := c) rfl, h.waiting (by simp [hs]), if_pos rfl]
  have hpromise : c.closePromise = true := (h.closing hs).2
  refine of_closed rfl rfl (h.idle (by simp [hs])) ?_ rfl (fun hf => ?_) (fun _ _ => hcount)
    fun hl => ?_
  · cases hst : c.startup with
    | none => exact hst
    | some startup =>
      rcases h.starting (by rw [hst]; rfl) with hc | hc <;> cases hs.symm.trans hc
  · cases hpromise.symm.trans hf
  · cases hs.symm.trans (h.forgotten hl).1

theorem shrink (h : Phase lost c) (hv : c'.view = c.view) (hp : c'.pending ⊆ c.pending) :
    Phase lost c' := by
  refine h.keep hv fun hs => ?_
  have hstate : c'.state = c.state := congrArg Prod.fst hv
  rw [h.idle (hstate ▸ hs)] at hp
  exact List.subset_nil.mp hp

theorem finish (h : Phase lost c) (p : Pending) (o : Outcome) : Phase lost (c.finish p o) := by
  refine h.shrink (c.view_finish p o) fun q hq => ?_
  have hq : q ∈ (c.removePending p).pending := hq
  rw [Client.pending_removePending] at hq
  exact (List.mem_filter.mp hq).1

theorem refuse (h : Phase lost c) (error : Failure) : Phase lost (c.refuse error) := by
  refine h.shrink ?_ fun _ => id
  have hcount : (c.refuse error).settlements .close = c.settlements .close :=
    Client.settlements_of_other rfl (by simp)
  rw [Client.view, hcount]
  rfl

theorem early (h : Phase lost c) (hs : c.state ≠ .closing) (hc : c.state ≠ .closed) :
    c.listening = true ∧ c.closeTimer = false ∧ c.closePromise = false ∧
      c.settlements .close = 0 ∧ ¬lost := by
  refine ⟨h.listening.mpr hc, ?_, ?_, h.waiting hc, fun hl => hc (h.forgotten hl).1⟩
  · exact Bool.eq_false_iff.mpr fun ht => hs (h.timer.mp ht)
  · exact Bool.eq_false_iff.mpr fun hp => (h.promised hp).elim hs hc

theorem onOpen (h : Phase lost c) (protocol : Text) (buffered : Amount)
    (thrown : Option Failure) : Phase lost (c.onOpen cfg protocol buffered thrown) := by
  unfold Client.onOpen
  split
  · rename_i startup hs _
    split
    · refine fail_of_ne ?_ (by simp [hs]) _
      exact { h with starting := fun _ => .inl hs }
    · have hauth : Phase lost { c with
          state := .authenticating
          startup := some
            { startup with timer := some (.authentication "authentication timed out" none) } } := by
        obtain ⟨hl, ht, hp, hcount, hlost⟩ := h.early (by simp [hs]) (by simp [hs])
        have hidle := h.idle (by simp [hs])
        have hreturned := h.returned
        simp only [Client.settlements] at hcount
        constructor <;> simp_all [Client.settlements]
      dsimp only
      split
      · exact hauth
      · exact hauth.fail_of_ne (by simp) _
  · exact h

theorem handleAuth (h : Phase lost c) (hs : c.state = .authenticating) (id : Text)
    (fields : Fields) : Phase lost (c.handleAuth id fields) := by
  have hne : c.state ≠ .closing := by simp [hs]
  obtain ⟨hl, ht, hp, hcount, hlost⟩ := h.early hne (by simp [hs])
  unfold Client.handleAuth
  split
  · exact h.fail_of_ne hne _
  · split
    · exact h.fail_of_ne hne _
    · split
      · exact h.fail_of_ne hne _
      · have hreturned := h.returned
        simp only [Client.settlements] at hcount
        split
        · constructor <;> simp_all [Client.settlements]
        · constructor <;> simp_all [Client.settle, Client.settlements, Effect.settles]

theorem onResponse (h : Phase lost c) (hs : c.state = .opened) (p : Pending) (fields : Fields) :
    Phase lost (c.onResponse p fields) := by
  have hne : c.state ≠ .closing := by simp [hs]
  unfold Client.onResponse
  split
  · exact h.finish p _
  · split
    · exact h.fail_of_ne hne _
    · exact h.finish p _
  · exact h.fail_of_ne hne _

theorem onMessage (h : Phase lost c) (data : Option Text) :
    Phase (lost ∨ c.state = .closing ∧ ∃ e, Client.readResponse cfg data = .error e)
      (c.onMessage cfg data) := by
  unfold Client.onMessage
  split
  · rename_i e he
    exact (h.fail e).congr (by simp [he])
  · rename_i id fields hread
    have hkeep {d : Client} (h : Phase lost d) :
        Phase (lost ∨ c.state = .closing ∧ ∃ e, Client.readResponse cfg data = .error e) d :=
      h.congr (by simp [hread])
    split
    · rename_i hs
      exact hkeep (h.handleAuth hs id fields)
    · rename_i hs
      split
      · exact hkeep h
      · exact hkeep (h.onResponse hs _ fields)
    · exact hkeep h

theorem onClose (h : Phase lost c) : Phase lost c.onClose := by
  unfold Client.onClose
  split
  · rename_i hs
    rw [if_pos (h.closing hs).1]
    exact h.finalize hs _
  · exact h
  · rename_i hs _
    exact h.failConnection_of_ne hs _

theorem onError (h : Phase lost c) : Phase lost c.onError := by
  unfold Client.onError
  split
  · exact h
  · exact h
  · rename_i hs
    exact h.fail_of_ne hs _

theorem enqueue (h : Phase lost c) (hs : c.state = .opened) (p : Pending) :
    Phase lost (c.enqueue p) := by
  refine h.keep ?_ fun hne => absurd hs hne
  simp [Client.view, Client.enqueue, Client.settlements, Effect.settles]

theorem submit (h : Phase lost c) (hs : c.state = .opened) (call : Call Params) (buffered : Nat) :
    Phase lost (c.submit cfg call buffered) := by
  have hnext : Phase lost { c with nextId := c.nextId + 1 } := h.keep rfl h.idle
  unfold Client.submit
  dsimp only
  split
  · exact hnext.refuse _
  · split
    · exact hnext.refuse _
    · split
      · exact hnext.refuse _
      · rw [Client.accept]
        split
        · exact (hnext.enqueue hs _).finish _ _
        · exact hnext.enqueue hs _

theorem request (h : Phase lost c) (call : Call Params) : Phase lost (c.request cfg call) := by
  unfold Client.request
  split
  · exact h.refuse _
  · rename_i hopen
    have hs : c.state = .opened := by
      by_contra hs
      exact hopen (.inl hs)
    split
    · exact h.refuse _
    · split
      · exact h
      · split
        · exact h.refuse _
        · split
          · exact (h.fail_of_ne (by simp [hs]) _).refuse _
          · exact h.submit hs call _

theorem close (h : Phase lost c) (hr : c.returned = true) (timeoutMs : Option (Option Int))
    (thrown : Bool) : Phase lost (c.close timeoutMs thrown) := by
  unfold Client.close
  split
  · exact h
  · rename_i hopen
    obtain ⟨hc, hp⟩ := not_or.mp hopen
    split
    · exact h
    · have hs : c.state = .opened := by
        rcases h.returned hr with hs | hs | hs
        · exact hs
        · exact absurd (h.closing hs).2 hp
        · exact absurd hs hc
      dsimp only
      generalize Failure.connection "client closed before a response was received" = cause
      have hview := Client.view_rejectAll cause { c with state := .closing }
      have hpending := Client.pending_rejectAll cause { c with state := .closing }
      generalize Client.rejectAll cause { c with state := .closing } = d at hview hpending ⊢
      simp only [Client.view, Prod.mk.injEq] at hview
      obtain ⟨hst, hl, hsu, hrd, -, -, -, hcount⟩ := hview
      have hzero : d.settlements .close = 0 := hcount.trans (h.waiting hc)
      have hstartup : c.startup.isSome = true → False := fun hsome => by
        rcases h.starting hsome with hc | hc <;> cases hs.symm.trans hc
      have hlistening := h.listening.mpr hc
      have hlost : ¬lost := fun hl => hc (h.forgotten hl).1
      have hclosing : Phase lost
          { d with closePromise := true, closeResolve := true, closeTimer := true } := by
        simp only [Client.settlements] at hzero
        constructor <;> simp_all [Client.settlements]
      split
      · exact hclosing.finalize hst _
      · exact hclosing.closeSocket _

theorem requestTimer (h : Phase lost c) (id : Text) : Phase lost (c.requestTimer id) := by
  unfold Client.requestTimer
  split
  · split
    · exact h.keep rfl h.idle
    · exact h.finish _ _
  · exact h

theorem requestAbort (h : Phase lost c) (id : Text) : Phase lost (c.requestAbort id) := by
  unfold Client.requestAbort
  split
  · exact h
  · split
    · exact h.finish _ _
    · exact h

theorem starting_ne (h : Phase lost c) (hs : c.startup.isSome = true) : c.state ≠ .closing := by
  intro hc
  rcases h.starting hs with hs | hs <;> cases hc.symm.trans hs

theorem startupTimer (h : Phase lost c) : Phase lost c.startupTimer := by
  unfold Client.startupTimer
  split
  · exact h
  · rename_i e he
    obtain ⟨startup, hst, -⟩ := Option.bind_eq_some_iff.mp he
    exact h.fail_of_ne (h.starting_ne (by rw [hst]; rfl)) e

theorem startupAbort (h : Phase lost c) : Phase lost c.startupAbort := by
  unfold Client.startupAbort
  split
  · rename_i ha
    refine h.fail_of_ne (h.starting_ne ?_) _
    cases hst : c.startup with
    | none => simp [hst] at ha
    | some startup => rfl
  · exact h

theorem closeTimeout (h : Phase lost c) : Phase lost c.closeTimeout := by
  unfold Client.closeTimeout
  split
  · rename_i ht
    exact h.finalize (h.timer.mp ht) _
  · exact h

end Phase

def Event.Malformed (cfg : Config Params) : Event Params → Prop
  | .message data => ∃ e, Client.readResponse cfg data = .error e
  | _ => False

theorem Phase.step {lost : Prop} (h : Phase lost c) (e : Event Params) :
    Phase (lost ∨ c.state = .closing ∧ e.Malformed cfg) (step cfg c e) := by
  have hkeep {d : Client} (hm : ¬e.Malformed cfg) (h : Phase lost d) :
      Phase (lost ∨ c.state = .closing ∧ e.Malformed cfg) d :=
    h.congr (by simp [hm])
  cases e with
  | opened protocol buffered thrown =>
    exact hkeep id (guarded h (h.onOpen protocol buffered thrown))
  | message data =>
    rw [Typescript.step]
    split
    · exact h.onMessage data
    · rename_i hl
      have hs : c.state = .closed := by
        by_contra hs
        exact hl (h.listening.mpr hs)
      exact h.congr (by simp [hs])
  | close => exact hkeep id (guarded h h.onClose)
  | error => exact hkeep id (guarded h h.onError)
  | request call => exact hkeep id (guarded h (h.request call))
  | closeCall timeoutMs thrown =>
    rw [Typescript.step]
    split
    · rename_i hr
      exact hkeep id (h.close hr timeoutMs thrown)
    · exact hkeep id h
  | requestTimer i => exact hkeep id (h.requestTimer i)
  | requestAbort i => exact hkeep id (h.requestAbort i)
  | startupTimer => exact hkeep id h.startupTimer
  | startupAbort => exact hkeep id h.startupAbort
  | closeTimer => exact hkeep id h.closeTimeout

-- Runs

variable {signal : Option Bool} {events : List (Event Params)}

theorem run_append (cfg : Config Params) (signal : Option Bool) (events : List (Event Params))
    (e : Event Params) : run cfg signal (events ++ [e]) = step cfg (run cfg signal events) e := by
  rw [run, List.foldl_append]
  rfl

/-- The server has answered the request with an error other than that of an unknown outcome. -/
def Answered (cfg : Config Params) (events : List (Event Params)) (id : Text) : Prop :=
  ∃ data, .message data ∈ events ∧ Answers cfg data id

/-- A message that is no response comes while the client is closing. -/
def MalformedWhileClosing (cfg : Config Params) (signal : Option Bool)
    (events : List (Event Params)) : Prop :=
  ∃ front e back, events = front ++ e :: back ∧ (run cfg signal front).state = .closing ∧
    e.Malformed cfg

theorem malformedWhileClosing_append (e : Event Params) :
    MalformedWhileClosing cfg signal (events ++ [e]) ↔
      MalformedWhileClosing cfg signal events ∨
        (run cfg signal events).state = .closing ∧ e.Malformed cfg := by
  constructor
  · rintro ⟨front, m, back, hsplit, hs, hm⟩
    rcases List.eq_nil_or_concat back with rfl | ⟨back, last, rfl⟩
    · obtain ⟨rfl, hlast⟩ := List.append_inj' hsplit rfl
      cases hlast
      exact .inr ⟨hs, hm⟩
    · rw [List.concat_eq_append, ← List.cons_append, ← List.append_assoc] at hsplit
      exact .inl ⟨front, m, back, (List.append_inj' hsplit rfl).1, hs, hm⟩
  · rintro (⟨front, m, back, rfl, hs, hm⟩ | ⟨hs, hm⟩)
    · exact ⟨front, m, back ++ [e], by simp, hs, hm⟩
    · exact ⟨events, e, [], rfl, hs, hm⟩

theorem ledger_init (cfg : Config Params) (signal : Option Bool) :
    Ledger cfg (Answered cfg []) (run cfg signal []) := by
  have hnew : Ledger cfg (Answered cfg []) Client.new := by
    constructor <;> simp [Client.new, Client.settlements]
  show Ledger cfg _ (Client.new.initializeWith signal)
  rw [Client.initializeWith]
  split
  · exact (hnew.fail _).log trivial
  · exact hnew.frame rfl rfl rfl rfl le_rfl rfl

theorem phase_init (cfg : Config Params) (signal : Option Bool) :
    Phase False (run cfg signal []) := by
  show Phase False (Client.new.initializeWith signal)
  rw [Client.initializeWith]
  split
  · rw [Client.fail, Client.failConnection, if_neg (by decide)]
    constructor <;> simp [Client.new, Client.settlements, Client.settle, Client.safeClose,
      Client.rejectAll, Client.rejectStartup, Client.closeSocket, Effect.settles]
  · constructor <;> simp [Client.new, Client.settlements]

theorem ledger_run (cfg : Config Params) (signal : Option Bool) (events : List (Event Params)) :
    Ledger cfg (Answered cfg events) (run cfg signal events) := by
  induction events using List.reverseRecOn with
  | nil => exact ledger_init cfg signal
  | append_singleton events e ih =>
    rw [run_append]
    refine (ih.step e).mono fun id h => ?_
    rcases h with ⟨data, hmem, ha⟩ | h
    · exact ⟨data, List.mem_append_left _ hmem, ha⟩
    · cases e with
      | message data => exact ⟨data, by simp, h⟩
      | _ => exact h.elim

theorem phase_run (cfg : Config Params) (signal : Option Bool) (events : List (Event Params)) :
    Phase (MalformedWhileClosing cfg signal events) (run cfg signal events) := by
  induction events using List.reverseRecOn with
  | nil => exact (phase_init cfg signal).congr (by simp [MalformedWhileClosing])
  | append_singleton events e ih =>
    rw [run_append]
    exact (ih.step e).congr (malformedWhileClosing_append e)

structure RequestsSettle (cfg : Config Params) (events : List (Event Params)) (c : Client) :
    Prop where
  bytes : c.pendingBytes = (c.pending.map Pending.bytes).sum
  bytes_le : c.pendingBytes ≤ cfg.maxPendingBytes
  count_le : c.pending.length ≤ cfg.maxPendingRequests
  once : ∀ n, c.settlements (.request n) ≤ 1
  /-- What is not settled has a timer that is armed, and the connection has not ended. -/
  open_or_settled : ∀ n < c.calls, c.settlements (.request n) = 1 ∨
    c.state ≠ .closed ∧ ∃ p ∈ c.pending, p.promise = n ∧ p.id ∈ c.timers
  elapsed : ∀ p ∈ c.pending,
    (step cfg c (.requestTimer p.id)).settlements (.request p.promise) = 1
  mutation : ∀ n id f, .send n id true ∈ c.log → .settle (.request n) (.rejected f) ∈ c.log →
    f.isAmbiguous = false → Answered cfg events id

/-- The promise of `close`. -/
structure CloseSettles (cfg : Config Params) (c : Client) : Prop where
  once : c.settlements .close ≤ 1
  open_or_settled : c.closePromise = true → c.settlements .close = 1 ∨
    c.state ≠ .closed ∧ c.closeTimer = true
  elapsed : c.closeTimer = true → (step cfg c .closeTimer).settlements .close = 1

theorem Ledger.find_of_mem {A : Text → Prop} (h : Ledger cfg A c) (hp : p ∈ c.pending) :
    c.find p.id = some p := by
  cases hf : c.find p.id with
  | none =>
    have hne := List.find?_eq_none.mp hf p hp
    simp at hne
  | some q =>
    obtain ⟨hq, hid⟩ := Client.find_some hf
    rw [List.inj_on_of_nodup_map h.ids hq hp hid]

theorem Ledger.requestsSettle (h : Ledger cfg (Answered cfg events) c) (hp : Phase lost c) :
    RequestsSettle cfg events c where
  bytes := h.bytes
  bytes_le := h.bytes_le
  count_le := h.count_le
  once n := by
    by_cases hn : n < c.calls
    · by_cases hall : ∀ p ∈ c.pending, p.promise ≠ n
      · exact (h.settled n hn hall).le
      · push Not at hall
        obtain ⟨p, hmem, rfl⟩ := hall
        exact (h.waiting p hmem).le.trans zero_le_one
    · exact (h.unused n (by omega)).le.trans zero_le_one
  open_or_settled n hn := by
    by_cases hall : ∀ p ∈ c.pending, p.promise ≠ n
    · exact .inl (h.settled n hn hall)
    · push Not at hall
      obtain ⟨p, hmem, hpn⟩ := hall
      refine .inr ⟨fun hs => ?_, p, hmem, hpn, h.timers p hmem⟩
      rw [hp.idle (by simp [hs])] at hmem
      cases hmem
  elapsed p hmem := by
    show (c.requestTimer p.id).settlements _ = 1
    rw [Client.requestTimer, if_pos (h.timers p hmem), h.find_of_mem hmem]
    refine (Client.settlements_request (c := c.removePending p) rfl _).trans ?_
    rw [if_pos rfl, Client.removePending_of_mem hmem]
    exact congrArg (· + 1) (h.waiting p hmem)
  mutation := h.rejected

theorem Phase.closeSettles (h : Phase lost c) : CloseSettles cfg c ↔ ¬lost := by
  constructor
  · intro hc hl
    obtain ⟨hs, hp, hzero⟩ := h.forgotten hl
    rcases hc.open_or_settled hp with hone | ⟨hne, -⟩
    · rw [hzero] at hone
      cases hone
    · exact hne hs
  · intro hl
    by_cases hp : c.closePromise = true
    · rcases h.promised hp with hs | hs
      · have hzero := h.waiting (by simp [hs])
        refine ⟨by omega, fun _ => .inr ⟨by simp [hs], h.timer.mpr hs⟩, fun ht => ?_⟩
        show c.closeTimeout.settlements .close = 1
        rw [Client.closeTimeout, if_pos ht, Client.settlements_of_log (c := c) rfl, hzero,
          if_pos rfl]
      · have hone := h.settled hs hp hl
        refine ⟨hone.le, fun _ => .inl hone, fun ht => ?_⟩
        cases hs.symm.trans (h.timer.mp ht)
    · have hp := Bool.eq_false_iff.mpr hp
      have hzero := h.unpromised hp
      refine ⟨by omega, fun hpt => ?_, fun ht => ?_⟩
      · cases hp.symm.trans hpt
      · cases hp.symm.trans (h.closing (h.timer.mp ht)).2

/-- Requests settle over every order of events; the close promise does unless a malformed message
comes while the client is closing. -/
theorem client_settles (cfg : Config Params) (signal : Option Bool)
    (events : List (Event Params)) :
    RequestsSettle cfg events (run cfg signal events) ∧
      (CloseSettles cfg (run cfg signal events) ↔ ¬MalformedWhileClosing cfg signal events) :=
  ⟨(ledger_run cfg signal events).requestsSettle (phase_run cfg signal events),
    (phase_run cfg signal events).closeSettles⟩

def authReply : Text :=
  "\x7b\"jsonrpc\":\"2.0\",\"id\":\"auth\",\"result\":\x7b\"protocol\":1\x7d\x7d".toList

def echoConfig : Config Unit where
  maxPendingRequests := 32
  maxPendingBytes := 8388608
  maxFrameBytes := 8388608
  token := ()
  encode _ _ _ := .ok []
  decode text := if text = authReply then some (.object [("jsonrpc".toList, .string "2.0".toList),
    ("id".toList, .string "auth".toList),
    ("result".toList, .object [("protocol".toList, .bigint 1)])]) else none

/-- A binary frame comes between `close` and the close event of the socket. -/
def lostClose : Client :=
  run echoConfig none [.opened "varve.v1".toList (.value (some 0)) none,
    .message (some authReply), .closeCall none false, .message none, .close, .closeTimer]

theorem close_promise_lost :
    lostClose.closePromise = true ∧ lostClose.state = .closed ∧ lostClose.closeTimer = false ∧
      lostClose.settlements .close = 0 ∧ ¬CloseSettles echoConfig lostClose := by
  refine ⟨by decide, by decide, by decide, by decide, fun h => ?_⟩
  exact absurd (h.open_or_settled (by decide)) (by decide)

end Varve.Typescript
