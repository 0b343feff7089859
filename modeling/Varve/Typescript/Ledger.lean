import Varve.Typescript.Client

/-!
# The ledger of requests

What a client knows of its requests: the pending ones with their bytes, timers and promises, and
what its log says of each promise.
-/

namespace Varve.Typescript

variable {Params : Type} {cfg : Config Params} {c c' : Client}

def Effect.settles (q : Promise) : Effect → Bool
  | .settle p _ => p = q
  | _ => false

def Client.settlements (q : Promise) (c : Client) : Nat := c.log.countP (Effect.settles q)

def digitValue (c : Char) : Nat := if c.toNat < 58 then c.toNat - 48 else c.toNat - 87

theorem digitValue_digit36 : ∀ n < 36, digitValue (Client.digit36 n) = n := by
  decide

theorem requestId_inj (h : Client.requestId m = Client.requestId n) : m = n := by
  have hdigits := List.reverse_injective (List.append_cancel_left h)
  have hread (k : Nat) :
      ((Nat.digits 36 k).map Client.digit36).map digitValue = Nat.digits 36 k := by
    rw [List.map_map]
    refine (List.map_congr_left fun d hd => ?_).trans (List.map_id _)
    exact digitValue_digit36 d (Nat.digits_lt_base (by decide) hd)
  refine (Nat.digits_inj_iff (b := 36)).mp ?_
  rw [← hread m, hdigits, hread n]

-- The ledger of requests

/-- Requests and their promises. `answered` holds of the ids that the server has answered with an
error other than that of an unknown outcome. -/
structure Ledger (cfg : Config Params) (answered : Text → Prop) (c : Client) : Prop where
  bytes : c.pendingBytes = (c.pending.map Pending.bytes).sum
  bytes_le : c.pendingBytes ≤ cfg.maxPendingBytes
  count_le : c.pending.length ≤ cfg.maxPendingRequests
  ids : (c.pending.map Pending.id).Nodup
  ids_old : ∀ p ∈ c.pending, ∃ k < c.nextId, p.id = Client.requestId k
  timers : ∀ p ∈ c.pending, p.id ∈ c.timers
  promises : (c.pending.map Pending.promise).Nodup
  promises_old : ∀ p ∈ c.pending, p.promise < c.calls
  waiting : ∀ p ∈ c.pending, c.settlements (.request p.promise) = 0
  settled : ∀ n < c.calls, (∀ p ∈ c.pending, p.promise ≠ n) → c.settlements (.request n) = 1
  unused : ∀ n, c.calls ≤ n → c.settlements (.request n) = 0
  sent_old : ∀ n id m, .send n id m ∈ c.log → n < c.calls
  sent : ∀ p ∈ c.pending, ∀ id m, .send p.promise id m ∈ c.log → id = p.id ∧ m = p.mutation
  rejected : ∀ n id f, .send n id true ∈ c.log →
    .settle (.request n) (.rejected f) ∈ c.log → f.isAmbiguous = false → answered id

namespace Client

theorem settlements_of_log {c c' : Client} (h : c'.log = c.log ++ [.settle promise o])
    (q : Promise) : c'.settlements q = c.settlements q + if promise = q then 1 else 0 := by
  simp [settlements, h, Effect.settles, List.countP_singleton]

theorem settlements_of_other {c c' : Client} (h : c'.log = c.log ++ [.settle promise o])
    (hne : promise ≠ q) : c'.settlements q = c.settlements q := by
  rw [settlements_of_log h, if_neg hne, Nat.add_zero]

theorem settlements_request {c c' : Client} (h : c'.log = c.log ++ [.settle (.request m) o])
    (n : Nat) :
    c'.settlements (.request n) = c.settlements (.request n) + if m = n then 1 else 0 := by
  simp [settlements_of_log h]

theorem find_some {c : Client} {id : Text} (h : c.find id = some p) :
    p ∈ c.pending ∧ p.id = id := by
  refine ⟨List.mem_of_find?_eq_some h, ?_⟩
  simpa using List.find?_some h

theorem removePending_of_mem {c : Client} (hp : p ∈ c.pending) :
    c.removePending p =
      { c with
        pending := c.pending.filter fun q => q.id ≠ p.id
        timers := c.timers.filter (· ≠ p.id)
        pendingBytes := c.pendingBytes - p.bytes } := by
  rw [removePending, if_pos]
  rw [find, List.find?_isSome]
  exact ⟨p, hp, by simp⟩

theorem pending_removePending (c : Client) (p : Pending) :
    (c.removePending p).pending = c.pending.filter fun q => q.id ≠ p.id := by
  rw [removePending]
  split
  · rfl
  · rename_i h
    rw [find, List.find?_isSome] at h
    refine (List.filter_eq_self.mpr fun q hq => ?_).symm
    simpa using fun he => h ⟨q, hq, by simpa using he⟩

theorem pending_interrupt (c : Client) (cause : Failure) (p : Pending) :
    (c.interrupt cause p).pending = c.pending.filter fun q => q.id ≠ p.id :=
  c.pending_removePending p

end Client

def Effect.Neutral : Effect → Prop
  | .settle (.request _) _ => False
  | .send .. => False
  | _ => True

namespace Ledger

variable {A B : Text → Prop}

theorem mono (h : Ledger cfg A c) (hA : ∀ id, A id → B id) : Ledger cfg B c :=
  { h with rejected := fun n id f hs hr hf => hA id (h.rejected n id f hs hr hf) }

theorem frame (h : Ledger cfg A c) (hp : c'.pending = c.pending)
    (hb : c'.pendingBytes = c.pendingBytes) (ht : c'.timers = c.timers)
    (hc : c'.calls = c.calls) (hn : c.nextId ≤ c'.nextId) (hl : c'.log = c.log) :
    Ledger cfg A c' where
  bytes := by rw [hb, hp, h.bytes]
  bytes_le := hb ▸ h.bytes_le
  count_le := hp ▸ h.count_le
  ids := hp ▸ h.ids
  ids_old p hmem := by
    obtain ⟨k, hk, hid⟩ := h.ids_old p (hp ▸ hmem)
    exact ⟨k, hk.trans_le hn, hid⟩
  timers p hmem := ht ▸ h.timers p (hp ▸ hmem)
  promises := hp ▸ h.promises
  promises_old p hmem := hc ▸ h.promises_old p (hp ▸ hmem)
  waiting p hmem := by
    rw [Client.settlements, hl]
    exact h.waiting p (hp ▸ hmem)
  settled n hlt hall := by
    rw [Client.settlements, hl]
    exact h.settled n (hc ▸ hlt) (hp ▸ hall)
  unused n hle := by
    rw [Client.settlements, hl]
    exact h.unused n (hc ▸ hle)
  sent_old n id m hs := hc ▸ h.sent_old n id m (hl ▸ hs)
  sent p hmem id m hs := h.sent p (hp ▸ hmem) id m (hl ▸ hs)
  rejected n id f hs hr := h.rejected n id f (hl ▸ hs) (hl ▸ hr)

theorem log (h : Ledger cfg A c) (he : e.Neutral) :
    Ledger cfg A { c with log := c.log ++ [e] } := by
  have hsend (n : Nat) (id : Text) (m : Bool) (hs : .send n id m ∈ c.log ++ [e]) :
      .send n id m ∈ c.log := by
    rcases List.mem_append.mp hs with hs | hs
    · exact hs
    · cases List.mem_singleton.mp hs
      exact he.elim
  have hsettle (n : Nat) (o : Outcome) (hs : .settle (.request n) o ∈ c.log ++ [e]) :
      .settle (.request n) o ∈ c.log := by
    rcases List.mem_append.mp hs with hs | hs
    · exact hs
    · cases List.mem_singleton.mp hs
      exact he.elim
  have hcount (n : Nat) :
      Client.settlements (.request n) { c with log := c.log ++ [e] } =
        c.settlements (.request n) := by
    have hnone : e.settles (.request n) = false := by
      cases e with
      | settle p o => cases p <;> simp_all [Effect.settles, Effect.Neutral]
      | _ => rfl
    simp [Client.settlements, hnone]
  exact { h with
    waiting := fun p hp => (hcount _).trans (h.waiting p hp)
    settled := fun n hlt hall => (hcount n).trans (h.settled n hlt hall)
    unused := fun n hle => (hcount n).trans (h.unused n hle)
    sent_old := fun n id m hs => h.sent_old n id m (hsend n id m hs)
    sent := fun p hp id m hs => h.sent p hp id m (hsend _ id m hs)
    rejected := fun n id f hs hr => h.rejected n id f (hsend n id true hs) (hsettle n _ hr) }

theorem split (h : Ledger cfg A c) (hp : p ∈ c.pending) :
    ∃ s t, c.pending = s ++ p :: t ∧ (c.pending.filter fun q => q.id ≠ p.id) = s ++ t ∧
      (∀ q ∈ s ++ t, q.id ≠ p.id ∧ q.promise ≠ p.promise) := by
  obtain ⟨s, t, hst⟩ := List.append_of_mem hp
  have hperm : c.pending.Perm (p :: (s ++ t)) := hst ▸ List.perm_middle
  have hids := (hperm.map Pending.id).nodup_iff.mp h.ids
  have hpromises := (hperm.map Pending.promise).nodup_iff.mp h.promises
  have hne (q : Pending) (hq : q ∈ s ++ t) : q.id ≠ p.id ∧ q.promise ≠ p.promise := by
    refine ⟨fun he => (List.nodup_cons.mp hids).1 ?_,
      fun he => (List.nodup_cons.mp hpromises).1 ?_⟩
    · exact he ▸ List.mem_map_of_mem hq
    · exact he ▸ List.mem_map_of_mem hq
  refine ⟨s, t, hst, ?_, hne⟩
  rw [hst]
  simp only [List.filter_append, List.filter_cons, ne_eq, not_true_eq_false, decide_false,
    Bool.false_eq_true, if_false]
  rw [← List.filter_append]
  exact List.filter_eq_self.mpr fun q hq => by simpa using (hne q hq).1

theorem finish (h : Ledger cfg A c) (hp : p ∈ c.pending)
    (ho : ∀ f, o = .rejected f → p.mutation = true → f.isAmbiguous = false → A p.id) :
    Ledger cfg A (c.finish p o) := by
  obtain ⟨s, t, hst, hpending, hne⟩ := h.split hp
  have hperm : c.pending.Perm (p :: (s ++ t)) := hst ▸ List.perm_middle
  have hmem (q : Pending) (hq : q ∈ s ++ t) : q ∈ c.pending :=
    hperm.mem_iff.mpr (List.mem_cons_of_mem p hq)
  have hsend (n : Nat) (id : Text) (m : Bool)
      (hs : .send n id m ∈ c.log ++ [.settle (.request p.promise) o]) : .send n id m ∈ c.log := by
    simpa using hs
  have hsum : (c.pending.map Pending.bytes).sum = p.bytes + ((s ++ t).map Pending.bytes).sum := by
    rw [(hperm.map Pending.bytes).sum_eq, List.map_cons, List.sum_cons]
  have hbytes := h.bytes
  have hle := h.bytes_le
  rw [hsum] at hbytes
  rw [Client.finish, Client.removePending_of_mem hp, hpending]
  constructor <;> dsimp only [Client.settle]
  · rw [hbytes]
    push_cast
    ring
  · omega
  · have hlen := h.count_le
    rw [hperm.length_eq, List.length_cons] at hlen
    omega
  · exact (List.nodup_cons.mp ((hperm.map Pending.id).nodup_iff.mp h.ids)).2
  · exact fun q hq => h.ids_old q (hmem q hq)
  · exact fun q hq => List.mem_filter.mpr ⟨h.timers q (hmem q hq), by simpa using (hne q hq).1⟩
  · exact (List.nodup_cons.mp ((hperm.map Pending.promise).nodup_iff.mp h.promises)).2
  · exact fun q hq => h.promises_old q (hmem q hq)
  · intro q hq
    refine (Client.settlements_request (c := c) rfl _).trans ?_
    rw [h.waiting q (hmem q hq), if_neg (hne q hq).2.symm]
  · intro n hlt hall
    refine (Client.settlements_request (c := c) rfl n).trans ?_
    by_cases hn : p.promise = n
    · rw [if_pos hn, ← hn, h.waiting p hp]
    · have hother : ∀ q ∈ c.pending, q.promise ≠ n := by
        simp only [hperm.mem_iff, List.forall_mem_cons]
        exact ⟨hn, hall⟩
      rw [if_neg hn, h.settled n hlt hother]
  · intro n hle
    have hlt := h.promises_old p hp
    refine (Client.settlements_request (c := c) rfl n).trans ?_
    rw [if_neg (by omega), h.unused n hle]
  · exact fun n id m hs => h.sent_old n id m (hsend n id m hs)
  · exact fun q hq id m hs => h.sent q (hmem q hq) id m (hsend _ id m hs)
  · intro n id f hs hr hf
    rcases List.mem_append.mp hr with hr | hr
    · exact h.rejected n id f (hsend n id true hs) hr hf
    · cases List.mem_singleton.mp hr
      obtain ⟨rfl, hm⟩ := h.sent p hp id true (hsend _ id true hs)
      exact ho f rfl hm.symm hf

theorem interrupt (h : Ledger cfg A c) (hp : p ∈ c.pending) (cause : Failure) :
    Ledger cfg A (c.interrupt cause p) := by
  refine h.finish hp fun f hf hm ha => ?_
  cases hf
  rw [interruptionFailure, if_pos hm] at ha
  cases ha

theorem rejectAll (h : Ledger cfg A c) (cause : Failure) : Ledger cfg A (c.rejectAll cause) := by
  rw [Client.rejectAll]
  generalize hps : c.pending = ps
  -- each request of the snapshot is the first of those that are left
  induction ps generalizing c with
  | nil => exact h
  | cons p ps ih =>
    have hp : p ∈ c.pending := hps ▸ List.mem_cons_self
    refine ih (h.interrupt hp cause) ?_
    rw [Client.pending_interrupt, hps]
    have hids := h.ids
    rw [hps, List.map_cons] at hids
    have hne (q : Pending) (hq : q ∈ ps) : q.id ≠ p.id := fun he =>
      (List.nodup_cons.mp hids).1 (he ▸ List.mem_map_of_mem hq)
    simpa using hne

theorem refuse (h : Ledger cfg A c) (error : Failure) : Ledger cfg A (c.refuse error) := by
  have hsend (n : Nat) (id : Text) (m : Bool)
      (hs : .send n id m ∈ c.log ++ [.settle (.request c.calls) (.rejected error)]) :
      .send n id m ∈ c.log := by
    simpa using hs
  have hcount (n : Nat) : (c.refuse error).settlements (.request n) =
      c.settlements (.request n) + if c.calls = n then 1 else 0 :=
    Client.settlements_request rfl n
  refine { h with
    promises_old := fun p hp => Nat.lt_succ_of_lt (h.promises_old p hp)
    waiting := fun p hp => ?_
    settled := fun n hlt hall => ?_
    unused := fun n hle => ?_
    sent_old := fun n id m hs => Nat.lt_succ_of_lt (h.sent_old n id m (hsend n id m hs))
    sent := fun p hp id m hs => h.sent p hp id m (hsend _ id m hs)
    rejected := fun n id f hs hr hf => ?_ }
  · have hlt := h.promises_old p hp
    rw [hcount, if_neg hlt.ne', h.waiting p hp]
  · have hlt : n < c.calls + 1 := hlt
    rw [hcount]
    by_cases hn : c.calls = n
    · rw [if_pos hn, h.unused n hn.le]
    · rw [if_neg hn, h.settled n (by omega) hall]
  · have hle : c.calls + 1 ≤ n := hle
    rw [hcount, if_neg (by omega), h.unused n (by omega)]
  · rcases List.mem_append.mp hr with hr | hr
    · exact h.rejected n id f (hsend n id true hs) hr hf
    · cases List.mem_singleton.mp hr
      exact absurd (h.sent_old _ id true (hsend _ id true hs)) (lt_irrefl _)

theorem enqueue (h : Ledger cfg A c) (hn : p.promise = c.calls)
    (hid : ∃ k < c.nextId, p.id = Client.requestId k) (hfresh : ∀ q ∈ c.pending, q.id ≠ p.id)
    (hc : c.pending.length < cfg.maxPendingRequests)
    (hb : c.pendingBytes + p.bytes ≤ cfg.maxPendingBytes) : Ledger cfg A (c.enqueue p) := by
  have hold (q : Pending) (hq : q ∈ c.pending) : q.promise ≠ p.promise :=
    hn ▸ (h.promises_old q hq).ne
  have hunsettled (o : Outcome) : .settle (.request c.calls) o ∉ c.log := by
    intro hmem
    have hcount := h.unused c.calls le_rfl
    rw [Client.settlements, List.countP_eq_zero] at hcount
    exact hcount _ hmem (by simp [Effect.settles])
  have hcount (n : Nat) : (c.enqueue p).settlements (.request n) = c.settlements (.request n) := by
    simp [Client.settlements, Client.enqueue, Effect.settles]
  constructor <;> dsimp only [Client.enqueue]
  · rw [h.bytes]
    simp
  · exact hb
  · simpa using hc
  · rw [List.map_append, List.nodup_append]
    exact ⟨h.ids, List.nodup_singleton _, by simpa using hfresh⟩
  · refine List.forall_mem_append.mpr ⟨h.ids_old, ?_⟩
    simpa using hid
  · refine List.forall_mem_append.mpr ⟨fun q hq => List.mem_cons_of_mem _ (h.timers q hq), ?_⟩
    simp
  · rw [List.map_append, List.nodup_append]
    exact ⟨h.promises, List.nodup_singleton _, by simpa using hold⟩
  · refine List.forall_mem_append.mpr ⟨fun q hq => Nat.lt_succ_of_lt (h.promises_old q hq), ?_⟩
    simp [hn]
  · intro q hq
    refine (hcount _).trans ?_
    rcases List.mem_append.mp hq with hq | hq
    · exact h.waiting q hq
    · rw [List.mem_singleton.mp hq, hn]
      exact h.unused _ le_rfl
  · intro n hlt hall
    obtain ⟨hall, hne⟩ := List.forall_mem_append.mp hall
    have hne : p.promise ≠ n := hne p (List.mem_singleton_self p)
    exact (hcount n).trans (h.settled n (by omega) hall)
  · exact fun n hle => (hcount n).trans (h.unused n (by omega))
  · intro n id m hs
    rcases List.mem_append.mp hs with hs | hs
    · exact Nat.lt_succ_of_lt (h.sent_old n id m hs)
    · cases List.mem_singleton.mp hs
      omega
  · intro q hq id m hs
    rcases List.mem_append.mp hs with hs | hs
    · rcases List.mem_append.mp hq with hq | hq
      · exact h.sent q hq id m hs
      · cases List.mem_singleton.mp hq
        exact absurd (h.sent_old _ id m hs) (by omega)
    · rcases List.mem_append.mp hq with hq | hq
      · injection List.mem_singleton.mp hs with hpromise
        exact absurd hpromise (hold q hq)
      · cases List.mem_singleton.mp hq
        injection List.mem_singleton.mp hs with _ hid hm
        exact ⟨hid, hm⟩
  · intro n id f hs hr hf
    have hr : .settle (.request n) (.rejected f) ∈ c.log := by simpa using hr
    rcases List.mem_append.mp hs with hs | hs
    · exact h.rejected n id f hs hr hf
    · injection List.mem_singleton.mp hs with hpromise
      rw [hpromise, hn] at hr
      exact absurd hr (hunsettled _)

theorem failConnection (h : Ledger cfg A c) (error : Failure) :
    Ledger cfg A (c.failConnection error) := by
  rw [Client.failConnection]
  split
  · exact h
  · have hstart : Ledger cfg A (Client.rejectStartup error { c with state := .closed }) := by
      rw [Client.rejectStartup]
      split
      · exact h.frame rfl rfl rfl rfl le_rfl rfl
      · exact (h.frame rfl rfl rfl rfl le_rfl rfl : Ledger cfg A
          { c with state := .closed, startup := none }).log trivial
    exact (hstart.rejectAll error).frame rfl rfl rfl rfl le_rfl rfl

theorem settle_close (h : Ledger cfg A c) (o : Outcome) : Ledger cfg A (c.settle .close o) :=
  h.log trivial

theorem closeSocket (h : Ledger cfg A c) (reason : String) : Ledger cfg A (c.closeSocket reason) :=
  h.log trivial

theorem fail (h : Ledger cfg A c) (error : Failure) : Ledger cfg A (c.fail error) :=
  (h.failConnection error).closeSocket _

theorem finalizeClosed (h : Ledger cfg A c) : Ledger cfg A c.finalizeClosed :=
  h.frame rfl rfl rfl rfl le_rfl rfl

end Ledger

-- Requests over a step

/-- The message answers a request with an error other than that of an unknown outcome. -/
def Answers (cfg : Config Params) (data : Option Text) (id : Text) : Prop :=
  ∃ fields error, Client.readResponse cfg data = .ok (id, fields) ∧
    parseRpcError (fields.get "error") = some error ∧ error.code ≠ -32000

theorem rpcFailure_ambiguous {p : Pending} {e : RpcError} (hm : p.mutation = true)
    (hc : e.code = -32000) : (rpcFailure p e).isAmbiguous = true := by
  rw [rpcFailure, if_neg (by rw [hc]; decide), if_pos ⟨hm, hc⟩]
  rfl

namespace Ledger

variable {A : Text → Prop}

theorem onOpen (h : Ledger cfg A c) (protocol : Text) (buffered : Amount)
    (thrown : Option Failure) : Ledger cfg A (c.onOpen cfg protocol buffered thrown) := by
  unfold Client.onOpen
  split
  · split
    · refine fail ?_ _
      exact h.frame rfl rfl rfl rfl le_rfl rfl
    · dsimp only
      split
      · exact h.frame rfl rfl rfl rfl le_rfl rfl
      · refine fail ?_ _
        exact h.frame rfl rfl rfl rfl le_rfl rfl
  · exact h

theorem handleAuth (h : Ledger cfg A c) (id : Text) (fields : Fields) :
    Ledger cfg A (c.handleAuth id fields) := by
  unfold Client.handleAuth
  split
  · exact h.fail _
  · split
    · exact h.fail _
    · split
      · exact h.fail _
      · split
        · exact h.frame rfl rfl rfl rfl le_rfl rfl
        · exact (h.frame rfl rfl rfl rfl le_rfl rfl : Ledger cfg A
            { c with state := .opened, startup := none, returned := true }).log trivial

theorem onResponse (h : Ledger cfg A c) (hp : p ∈ c.pending) {fields : Fields}
    (ha : ∀ e, parseRpcError (fields.get "error") = some e → e.code ≠ -32000 → A p.id) :
    Ledger cfg A (c.onResponse p fields) := by
  unfold Client.onResponse
  split
  · exact h.finish hp fun f hf => (nomatch hf)
  · rename_i error _ herror
    split
    · exact h.fail _
    · rename_i e he
      refine h.finish hp fun f hf hm hambiguous => ha e (herror ▸ he) fun hc => ?_
      cases hf
      rw [rpcFailure_ambiguous hm hc] at hambiguous
      cases hambiguous
  · exact h.fail _

theorem onMessage (h : Ledger cfg A c) (data : Option Text) :
    Ledger cfg (fun id => A id ∨ Answers cfg data id) (c.onMessage cfg data) := by
  have h : Ledger cfg (fun id => A id ∨ Answers cfg data id) c := h.mono fun _ => .inl
  unfold Client.onMessage
  split
  · exact h.fail _
  · rename_i id fields hread
    split
    · exact h.handleAuth id fields
    · split
      · exact h
      · rename_i p hfind
        obtain ⟨hp, rfl⟩ := Client.find_some hfind
        exact h.onResponse hp fun e he hc => .inr ⟨fields, e, hread, he, hc⟩
    · exact h

theorem onClose (h : Ledger cfg A c) : Ledger cfg A c.onClose := by
  unfold Client.onClose
  split
  · split
    · exact h.finalizeClosed.settle_close _
    · exact h.finalizeClosed
  · exact h
  · exact h.failConnection _

theorem onError (h : Ledger cfg A c) : Ledger cfg A c.onError := by
  unfold Client.onError
  split
  · exact h
  · exact h
  · exact h.fail _

theorem submit (h : Ledger cfg A c) (hc : c.pending.length < cfg.maxPendingRequests)
    (call : Call Params) (buffered : Nat) : Ledger cfg A (c.submit cfg call buffered) := by
  have hnext : Ledger cfg A { c with nextId := c.nextId + 1 } :=
    h.frame rfl rfl rfl rfl (Nat.le_succ _) rfl
  unfold Client.submit
  dsimp only
  split
  · exact hnext.refuse _
  · rename_i frame _
    split
    · exact hnext.refuse _
    · split
      · exact hnext.refuse _
      · rename_i hbytes
        have hqueue := hnext.enqueue
          (p := Client.newPending call (Client.requestId c.nextId) (Text.len frame) c) rfl
          ⟨c.nextId, Nat.lt_succ_self _, rfl⟩
          (fun q hq hid => by
            obtain ⟨k, hk, hqid⟩ := h.ids_old q hq
            exact hk.ne (requestId_inj (hqid.symm.trans hid)))
          hc (by simp only [Client.newPending]; omega)
        rw [Client.accept]
        split
        · exact hqueue.interrupt (List.mem_append_right _ (List.mem_singleton_self _)) _
        · exact hqueue

theorem request (h : Ledger cfg A c) (call : Call Params) :
    Ledger cfg A (c.request cfg call) := by
  unfold Client.request
  split
  · exact h.refuse _
  · split
    · exact h.refuse _
    · split
      · exact h
      · split
        · exact h.refuse _
        · rename_i hcount
          split
          · exact (h.fail _).refuse _
          · exact h.submit (by omega) call _

theorem close (h : Ledger cfg A c) (timeoutMs : Option (Option Int)) (thrown : Bool) :
    Ledger cfg A (c.close timeoutMs thrown) := by
  unfold Client.close
  split
  · exact h
  · split
    · exact h
    · have hclosing : Ledger cfg A { c with state := .closing } :=
        h.frame rfl rfl rfl rfl le_rfl rfl
      dsimp only
      split
      · refine settle_close ?_ _
        exact (hclosing.rejectAll _).frame rfl rfl rfl rfl le_rfl rfl
      · refine closeSocket ?_ _
        exact (hclosing.rejectAll _).frame rfl rfl rfl rfl le_rfl rfl

theorem requestTimer (h : Ledger cfg A c) (id : Text) : Ledger cfg A (c.requestTimer id) := by
  unfold Client.requestTimer
  split
  · split
    · rename_i hnone
      refine { h with timers := fun p hp => List.mem_filter.mpr ⟨h.timers p hp, ?_⟩ }
      have hne := List.find?_eq_none.mp hnone p hp
      simpa using hne
    · rename_i p hfind
      exact h.interrupt (Client.find_some hfind).1 _
  · exact h

theorem requestAbort (h : Ledger cfg A c) (id : Text) : Ledger cfg A (c.requestAbort id) := by
  unfold Client.requestAbort
  split
  · exact h
  · rename_i p hfind
    split
    · exact h.interrupt (Client.find_some hfind).1 _
    · exact h

theorem startupTimer (h : Ledger cfg A c) : Ledger cfg A c.startupTimer := by
  unfold Client.startupTimer
  split
  · exact h
  · exact h.fail _

theorem startupAbort (h : Ledger cfg A c) : Ledger cfg A c.startupAbort := by
  unfold Client.startupAbort
  split
  · exact h.fail _
  · exact h

theorem closeTimeout (h : Ledger cfg A c) : Ledger cfg A c.closeTimeout := by
  unfold Client.closeTimeout
  split
  · exact h.finalizeClosed.settle_close _
  · exact h

end Ledger

def Event.Answers (cfg : Config Params) (id : Text) : Event Params → Prop
  | .message data => Typescript.Answers cfg data id
  | _ => False

theorem guarded {P : Client → Prop} {b : Bool} (hc : P c) (hd : P c') :
    P (if b = true then c' else c) := by
  split
  · exact hd
  · exact hc

theorem Ledger.step {A : Text → Prop} (h : Ledger cfg A c) (e : Event Params) :
    Ledger cfg (fun id => A id ∨ e.Answers cfg id) (step cfg c e) := by
  have hmono {d : Client} (h : Ledger cfg A d) : Ledger cfg (fun id => A id ∨ e.Answers cfg id) d :=
    h.mono fun _ => .inl
  cases e with
  | opened protocol buffered thrown =>
    exact guarded (hmono h) (hmono (h.onOpen protocol buffered thrown))
  | message data => exact guarded (hmono h) (h.onMessage data)
  | close => exact guarded (hmono h) (hmono h.onClose)
  | error => exact guarded (hmono h) (hmono h.onError)
  | request call => exact guarded (hmono h) (hmono (h.request call))
  | closeCall timeoutMs thrown => exact guarded (hmono h) (hmono (h.close timeoutMs thrown))
  | requestTimer id => exact hmono (h.requestTimer id)
  | requestAbort id => exact hmono (h.requestAbort id)
  | startupTimer => exact hmono h.startupTimer
  | startupAbort => exact hmono h.startupAbort
  | closeTimer => exact hmono h.closeTimeout

end Varve.Typescript
