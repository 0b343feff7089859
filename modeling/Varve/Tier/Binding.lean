import Varve.Tier.Publication

/-!
# Recovery of a publication

Two invariants of the runs of a publisher.
-/

namespace Varve.Tier

open Journal (Digest)
open Result (ensure_bind)

variable {J : Json} {H : Digest} {isUuid : Text → Bool} {w w' : Site}

-- The parts of a step

theorem readBinding_ok (h : readBinding J isUuid loc f = .ok b) : b = f.binding.visible := by
  unfold readBinding at h
  cases hv : f.binding.visible with
  | none =>
    simp only [hv] at h
    cases h
    rfl
  | some x =>
    simp only [hv] at h
    obtain ⟨_, -, h⟩ := Result.bind_ok.mp h
    obtain ⟨head, hp, h⟩ := Result.bind_ok.mp h
    rw [ensure_bind] at h
    cases h.2
    rw [Head.parse_head hp]

theorem readIntent_none (h : readIntent J H f = .ok none) : f.intent.visible = none := by
  unfold readIntent at h
  cases hv : f.intent.visible with
  | none => rfl
  | some bytes =>
    simp only [hv] at h
    obtain ⟨_, -, h⟩ := Result.bind_ok.mp h
    cases h

theorem readIntent_some (h : readIntent J H f = .ok (some i)) :
    ∃ bytes, f.intent.visible = some bytes ∧ decodeIntent J H bytes = .ok i := by
  unfold readIntent at h
  cases hv : f.intent.visible with
  | none =>
    simp only [hv] at h
    cases h
  | some bytes =>
    simp only [hv] at h
    obtain ⟨j, hj, h⟩ := Result.bind_ok.mp h
    cases h
    exact ⟨bytes, rfl, hj⟩

theorem validateIntent_ok (h : validateIntent J isUuid loc i = .ok head) :
    Head.parse J isUuid i.intendedHead = .ok head := by
  simp only [validateIntent, ensure_bind] at h
  obtain ⟨-, -, -, h⟩ := h
  obtain ⟨x, hx, h⟩ := Result.bind_ok.mp h
  simp only [ensure_bind] at h
  cases h.2.2
  exact hx

theorem install_ok (h : installBindingFromReservation J f b i = .ok ops) :
    f.reservation.visible.isSome ∧ ops = [.shrink (J.bindingLength b), .bind b, .syncDir] := by
  unfold installBindingFromReservation at h
  obtain ⟨_, -, h⟩ := Result.bind_ok.mp h
  rw [ensure_bind] at h
  obtain ⟨-, h⟩ := h
  cases hv : f.reservation.visible with
  | none =>
    rw [hv] at h
    cases h
  | some length =>
    simp only [hv, ensure_bind] at h
    cases h.2.2
    exact ⟨rfl, rfl⟩

theorem checkIntent_ok (h : checkIntent J (some current) b i intended = .ok ops) :
    ops = [] ∨ ops = removePendingPublication ∧
      ∃ x, b = some x ∧ J.head x.head = i.intendedHead := by
  unfold checkIntent at h
  cases b with
  | none =>
    simp only [ensure_bind] at h
    cases h.2
    exact .inl rfl
  | some x =>
    simp only at h
    split at h
    next hm =>
      split at h
      · cases h
        exact .inr ⟨rfl, x, rfl, hm⟩
      · cases h
    next hm =>
      simp only [ensure_bind] at h
      cases h.2.2
      exact .inl rfl

/-- The second look binds to the head of the store, removes the intent under a binding to it, or
finds the head unchanged, or fences. -/
theorem resolveIntent_ok (h : resolveIntent J f current b i intended = .ok (ops, b', fenced)) :
    (∃ c, current = some c ∧ c.bytes = i.intendedHead ∧ fenced = none ∧
      ((ops = removePendingPublication ∧ b' = b ∧ ∃ x, b = some x ∧
        J.head x.head = i.intendedHead) ∨
       (f.reservation.visible.isSome ∧ b' = some ⟨c.token, intended⟩ ∧ ∃ n, ops =
        .shrink n :: .bind ⟨c.token, intended⟩ :: .syncDir :: removePendingPublication))) ∨
    (current.map Current.token = i.expectedToken ∧ ops = removePendingPublication ∧ b' = b ∧
      fenced = none) ∨
    (ops = [] ∧ b' = b ∧ fenced.isSome) := by
  unfold resolveIntent at h
  split at h
  next hc =>
    obtain ⟨c, rfl, hb⟩ := Option.map_eq_some_iff.mp hc
    obtain ⟨_, -, h⟩ := Result.bind_ok.mp h
    refine .inl ⟨c, rfl, hb, ?_⟩
    split at h
    next hx =>
      obtain ⟨x, hx, -, hm⟩ := hx
      cases h
      exact ⟨rfl, .inl ⟨rfl, rfl, x, hx, hm⟩⟩
    next =>
      obtain ⟨os, ho, h⟩ := Result.bind_ok.mp h
      obtain ⟨hr, rfl⟩ := install_ok ho
      cases h
      exact ⟨rfl, .inr ⟨hr, rfl, _, rfl⟩⟩
  next =>
    split at h
    next hu =>
      cases h
      exact .inr (.inl ⟨hu, rfl, rfl, rfl⟩)
    next =>
      cases h
      exact .inr (.inr ⟨rfl, rfl, rfl⟩)

theorem saveBinding_ok (h : saveBinding J H f token head = .ok ops) :
    (∃ n, ops = .shrink n :: .bind ⟨token, head⟩ :: .syncDir :: removePendingPublication) ∨
    (f.intent.visible = none ∧ ops = [.replaceBinding ⟨token, head⟩, .syncDir]) := by
  unfold saveBinding at h
  obtain ⟨i, hi, h⟩ := Result.bind_ok.mp h
  cases i with
  | some i =>
    simp only [ensure_bind] at h
    obtain ⟨os, ho, h⟩ := Result.bind_ok.mp h.2
    obtain ⟨-, rfl⟩ := install_ok ho
    cases h
    exact .inl ⟨_, rfl⟩
  | none =>
    obtain ⟨_, -, h⟩ := Result.bind_ok.mp h
    cases h
    exact .inr ⟨readIntent_none hi, rfl⟩

theorem preparePublicationIntent_ok
    (h : preparePublicationIntent J H loc f m head = .ok ops) : ∃ i bytes n,
      encodeIntent J H i = .ok bytes ∧ i.intendedHead = J.head head ∧ i.expectedToken = m.token ∧
      ops = [.reserve n, .syncDir, .writeIntent bytes, .syncDir] := by
  simp only [preparePublicationIntent, ensure_bind] at h
  obtain ⟨-, -, h⟩ := h
  obtain ⟨n, -, h⟩ := Result.bind_ok.mp h
  rw [ensure_bind] at h
  obtain ⟨_, -, h⟩ := Result.bind_ok.mp h.2
  obtain ⟨bytes, he, h⟩ := Result.bind_ok.mp h
  cases h
  exact ⟨_, bytes, n, he, rfl, rfl, rfl⟩

-- What a publisher is bound to

def Written (J : Json) (H : Digest) (bytes : Bytes) : Prop :=
  ∃ i head, encodeIntent J H i = .ok bytes ∧ i.intendedHead = J.head head

def Stage.bindings : Stage → List Binding
  | .down | .opening => []
  | .checking b _ _ => b.toList
  | .resolving m | .opened m | .preparing m _ | .abandoning m | .intended m _ | .unsure m _ =>
    m.binding.toList
  | .swapped m token head => ⟨token, head⟩ :: m.binding.toList
  | .saving m m' => m.binding.toList ++ m'.binding.toList

def FileOp.Honest (J : Json) (H : Digest) (history : List Current) : FileOp → Prop
  | .bind b | .replaceBinding b => ⟨b.token, J.head b.head⟩ ∈ history
  | .writeIntent bytes => Written J H bytes
  | _ => True

structure Honest (J : Json) (H : Digest) (w : Site) : Prop where
  intent : ∀ bytes, w.files.intent.visible = some bytes ∨ w.files.intent.durable = some bytes →
    Written J H bytes
  binding : ∀ b, w.files.binding.visible = some b ∨ w.files.binding.durable = some b → w.Held J b
  stage : ∀ b ∈ w.stage.bindings, w.Held J b
  checked : ∀ b i head, w.stage = .checking b i head → J.head head = i.intendedHead
  ops : ∀ op ∈ w.ops, op.Honest J H w.history

theorem FileOp.Honest.mono {op : FileOp} (h : op.Honest J H history) :
    op.Honest J H (c :: history) := by
  cases op <;> first | exact h | exact List.mem_cons_of_mem _ h

theorem honest_removePending : ∀ op ∈ removePendingPublication, op.Honest J H history := by
  simp [removePendingPublication, FileOp.Honest]

theorem Honest.apply (hw : Honest J H w) (ho : op.Honest J H w.history) :
    (∀ bytes, (w.files.apply op).intent.visible = some bytes ∨
      (w.files.apply op).intent.durable = some bytes → Written J H bytes) ∧
    ∀ b, (w.files.apply op).binding.visible = some b ∨
      (w.files.apply op).binding.durable = some b → w.Held J b := by
  cases op with
  | writeIntent bytes =>
    refine ⟨?_, hw.binding⟩
    rintro x (hx | hx)
    · cases hx
      exact ho
    · exact hw.intent x (.inr hx)
  | bind b | replaceBinding b =>
    refine ⟨hw.intent, ?_⟩
    rintro x (hx | hx)
    · cases hx
      exact ho
    · exact hw.binding x (.inr hx)
  | removeIntent =>
    refine ⟨?_, hw.binding⟩
    rintro x (hx | hx)
    · cases hx
    · exact hw.intent x (.inr hx)
  | syncDir =>
    exact ⟨fun x hx => hw.intent x (.inl (hx.elim id id)),
      fun x hx => hw.binding x (.inl (hx.elim id id))⟩
  | reserve n => exact ⟨hw.intent, hw.binding⟩
  | shrink n => exact ⟨hw.intent, hw.binding⟩
  | removeReservation => exact ⟨hw.intent, hw.binding⟩

theorem Honest.crash (hw : Honest J H w) (h : w.files.Crash f) :
    (∀ bytes, f.intent.visible = some bytes ∨ f.intent.durable = some bytes → Written J H bytes) ∧
    ∀ b, f.binding.visible = some b ∨ f.binding.durable = some b → w.Held J b := by
  cases h with
  | kill => exact ⟨hw.intent, hw.binding⟩
  | power hi hr hb =>
    refine ⟨fun x hx => hw.intent x ?_, fun x hx => hw.binding x ?_⟩
    · rcases hi with rfl | rfl <;> simp at hx <;> simp [hx]
    · rcases hb with rfl | rfl <;> simp at hx <;> simp [hx]

theorem Fails.bindings {s s' : Stage} (h : s.Fails s' ops) :
    (∀ b ∈ s'.bindings, b ∈ s.bindings) ∧ (∀ b i head, s' ≠ .checking b i head) ∧
      ∀ op ∈ ops, op ∈ removePendingPublication := by
  cases h <;> simp +contextual [Stage.bindings, Memory.fence, removePendingPublication]

theorem Honest.restage {s : Stage} {os : List FileOp} (hw : Honest J H w)
    (hs : ∀ b ∈ s.bindings, w.Held J b)
    (hc : ∀ b i head, s = .checking b i head → J.head head = i.intendedHead)
    (ho : ∀ op ∈ os, op.Honest J H w.history) :
    Honest J H { w with stage := s, ops := os, taken := taken } :=
  ⟨hw.intent, hw.binding, hs, hc, ho⟩

theorem Honest.loaded (hw : Honest J H w) (hb : readBinding J isUuid loc w.files = .ok b) :
    ∀ x ∈ b.toList, w.Held J x := by
  rintro x hx
  rw [readBinding_ok hb] at hx
  exact hw.binding x (.inl (Option.mem_toList.mp hx))

theorem honest_step (hw : Honest J H w) (h : Publish J H isUuid w w') : Honest J H w' := by
  cases h with
  | elsewhere hc =>
    exact ⟨hw.intent, fun b hb => List.mem_cons_of_mem _ (hw.binding b hb),
      fun b hb => List.mem_cons_of_mem _ (hw.stage b hb), hw.checked, fun op ho =>
        (hw.ops op ho).mono⟩
  | crash h =>
    obtain ⟨hi, hb⟩ := hw.crash h
    exact ⟨hi, hb, nofun, nofun, nofun⟩
  | exec h =>
    obtain ⟨hi, hb⟩ := hw.apply (hw.ops _ (h ▸ List.mem_cons_self))
    exact ⟨hi, hb, hw.stage, hw.checked, fun op ho => hw.ops op (h ▸ List.mem_cons_of_mem _ ho)⟩
  | ioError h hf hs =>
    obtain ⟨hsb, hsc, hso⟩ := Fails.bindings hs
    have hremove : ∀ op ∈ removePendingPublication, op.Honest J H w.history := honest_removePending
    have hops := fun op ho => hremove op (hso op ho)
    rcases hf with rfl | rfl
    · exact ⟨hw.intent, hw.binding, fun b hb => hw.stage b (hsb b hb),
        fun b i x hx => absurd hx (hsc b i x), hops⟩
    · obtain ⟨hi, hb⟩ := hw.apply (hw.ops _ (h ▸ List.mem_cons_self))
      exact ⟨hi, hb, fun b hb => hw.stage b (hsb b hb), fun b i x hx => absurd hx (hsc b i x), hops⟩
  | enter hs => exact hw.restage nofun nofun (by simp [FileOp.Honest])
  | load hs ho hb hi =>
    refine hw.restage (hw.loaded hb) nofun ?_
    split <;> simp [FileOp.Honest]
  | check hs ho hb hi hv hc =>
    refine hw.restage (hw.loaded hb) ?_ ?_
    · rintro _ _ _ ⟨⟩
      obtain ⟨bytes, hbytes, hd⟩ := readIntent_some hi
      obtain ⟨j, head, hj, hh⟩ := hw.intent bytes (.inl hbytes)
      obtain rfl := decodeIntent_encodeIntent hj hd
      have hp := validateIntent_ok hv
      rw [hh] at hp ⊢
      rw [Head.parse_head hp]
    · rcases checkIntent_ok hc with rfl | ⟨rfl, -⟩
      · nofun
      · exact honest_removePending
  | detached hs ho hb hi hv hc => exact hw.restage (hw.loaded hb) nofun nofun
  | resolve hs ho hr =>
    have hold := hw.stage
    rw [hs] at hold
    have hchk := hw.checked _ _ _ hs
    rcases resolveIntent_ok hr with ⟨c, hc, hbytes, -, ⟨rfl, rfl, -⟩ | ⟨-, rfl, n, rfl⟩⟩ |
      ⟨-, rfl, rfl, -⟩ | ⟨rfl, rfl, -⟩
    · exact hw.restage hold nofun honest_removePending
    · obtain ⟨token, bytes⟩ := c
      rw [show bytes = _ from hbytes, ← hchk] at hc
      have hheld := List.mem_of_mem_head? hc
      refine hw.restage (fun x hx => ?_) nofun ?_
      · cases List.mem_singleton.mp hx
        exact hheld
      · simpa [FileOp.Honest, removePendingPublication] using hheld
    · exact hw.restage hold nofun honest_removePending
    · exact hw.restage hold nofun nofun
  | opened hs ho => exact ⟨hw.intent, hw.binding, fun b hb => hw.stage b (hs ▸ hb), nofun, hw.ops⟩
  | prepare hs hf ha hp =>
    obtain ⟨i, bytes, n, he, hh, -, rfl⟩ := preparePublicationIntent_ok hp
    refine hw.restage (fun b hb => hw.stage b (hs ▸ hb)) nofun ?_
    simp only [List.forall_mem_cons, FileOp.Honest, true_and, and_true, List.not_mem_nil,
      false_imp_iff,
      implies_true]
    exact ⟨i, _, he, hh⟩
  | prepared hs ho => exact ⟨hw.intent, hw.binding, fun b hb => hw.stage b (hs ▸ hb), nofun, hw.ops⟩
  | abandoned hs ho =>
    exact ⟨hw.intent, hw.binding, fun b hb => hw.stage b (hs ▸ hb), nofun, hw.ops⟩
  | swap token reason hs he hc ha =>
    have hold := hw.stage
    rw [hs] at hold
    refine ⟨hw.intent, fun b hb => List.mem_cons_of_mem _ (hw.binding b hb), ?_, ?_,
      fun op ho => (hw.ops op ho).mono⟩
    · rcases ha with ⟨rfl, -⟩ | rfl | rfl
      · exact List.forall_mem_cons.mpr
          ⟨List.mem_cons_self, fun b hb => List.mem_cons_of_mem _ (hold b hb)⟩
      · exact fun b hb => List.mem_cons_of_mem _ (hold b hb)
      · exact fun b hb => List.mem_cons_of_mem _ (hold b hb)
    · rcases ha with ⟨rfl, -⟩ | rfl | rfl <;> nofun
  | swapError hs => exact ⟨hw.intent, hw.binding, fun b hb => hw.stage b (hs ▸ hb), nofun, hw.ops⟩
  | committed hs hc ht =>
    refine ⟨hw.intent, hw.binding, List.forall_mem_cons.mpr ⟨List.mem_of_mem_head? hc, ?_⟩,
      nofun, hw.ops⟩
    exact fun b hb => hw.stage b (hs ▸ hb)
  | rejected hs hn hu =>
    exact hw.restage (fun b hb => hw.stage b (hs ▸ hb)) nofun honest_removePending
  | ambiguous reason hs =>
    exact ⟨hw.intent, hw.binding, fun b hb => hw.stage b (hs ▸ hb), nofun, hw.ops⟩
  | save hs hv =>
    have hold := hw.stage
    rw [hs] at hold
    obtain ⟨hnew, hm⟩ := List.forall_mem_cons.mp hold
    refine hw.restage (List.forall_mem_append.mpr ⟨hm, ?_⟩) nofun ?_
    · simpa using hnew
    · rcases saveBinding_ok hv with ⟨n, rfl⟩ | ⟨-, rfl⟩
      · simpa [FileOp.Honest, removePendingPublication, Site.Held] using hnew
      · simpa [FileOp.Honest, Site.Held] using hnew
  | unsaved hs =>
    exact ⟨hw.intent, hw.binding, fun b hb => hw.stage b (hs ▸ List.mem_cons_of_mem _ hb),
      nofun, hw.ops⟩
  | saved hs ho =>
    exact ⟨hw.intent, hw.binding, fun b hb => hw.stage b (hs ▸ List.mem_append_right _ hb),
      nofun, hw.ops⟩

theorem honest_start (h : w.Start J) : Honest J H w := by
  obtain ⟨hs, ho, -, -, ⟨hi, -, hb⟩, hn, hheld⟩ := h
  refine ⟨?_, ?_, by simp [hs, Stage.bindings], by simp [hs], by simp [ho]⟩
  · rintro bytes hx
    rw [← hi, or_self, hn] at hx
    cases hx
  · rintro b hx
    rw [← hb, or_self] at hx
    exact hheld b hx

-- What an intent protects

/-- If the swap of the intent took effect, it put the intended head over the expected one. -/
def Names (history : List Current) (taken : Option Current) (i : PublicationIntent) : Prop :=
  ∀ c, taken = some c → ∃ newer older, history = newer ++ c :: older ∧
    i.intendedHead = c.bytes ∧ i.expectedToken = older.head?.map Current.token

def BoundTo (J : Json) (taken : Option Current) (b : Option Binding) : Prop :=
  ∀ c, taken = some c → ∃ x, b = some x ∧ J.head x.head = c.bytes

def Files.Pending (f : Files) : Prop :=
  f.intent.visible = f.intent.durable ∧ f.intent.visible.isSome

structure Protected (J : Json) (H : Digest) (f : Files) (history : List Current)
    (taken : Option Current) : Prop where
  fresh : (history.map Current.token).Nodup
  intent : ∀ bytes, f.intent.visible = some bytes ∨ f.intent.durable = some bytes →
    ∃ i, encodeIntent J H i = .ok bytes ∧ Names history taken i
  covered : taken.isSome → f.Pending ∨
    (f.binding.visible = f.binding.durable ∧ BoundTo J taken f.binding.durable)

/-- The way from a chosen binding to a removed intent. -/
inductive Finishing (J : Json) (taken : Option Current) (f : Files) (b : Option Binding) :
    List FileOp → Prop where
  | shrink (hb : b = some x) (hc : BoundTo J taken b) (hi : f.Pending) :
      Finishing J taken f b (.shrink n :: .bind x :: .syncDir :: removePendingPublication)
  | bind (hb : b = some x) (hc : BoundTo J taken b) (hi : f.Pending) :
      Finishing J taken f b (.bind x :: .syncDir :: removePendingPublication)
  | sync (hb : f.binding.visible = b) (hc : BoundTo J taken b) (hi : f.Pending) :
      Finishing J taken f b (.syncDir :: removePendingPublication)
  | remove (hb : f.binding = ⟨b, b⟩) (hc : BoundTo J taken b) :
      Finishing J taken f b removePendingPublication
  | removed (hb : f.binding = ⟨b, b⟩) (hc : BoundTo J taken b) (hi : f.intent.visible = none) :
      Finishing J taken f b [.removeReservation, .syncDir]
  | synced (hb : f.binding = ⟨b, b⟩) (hc : BoundTo J taken b) (hi : f.intent.visible = none)
      (hr : f.reservation.visible = none) : Finishing J taken f b [.syncDir]
  | done (hb : f.binding = ⟨b, b⟩) (hc : BoundTo J taken b) (hi : f.intent = ⟨none, none⟩)
      (hr : f.reservation.visible = none) : Finishing J taken f b []

inductive Preparing (J : Json) (H : Digest) (head : Head) (expected : Option Text) (f : Files) :
    List FileOp → Prop where
  | reserve (hi : encodeIntent J H i = .ok bytes) (hh : i.intendedHead = J.head head)
      (he : i.expectedToken = expected) :
      Preparing J H head expected f [.reserve n, .syncDir, .writeIntent bytes, .syncDir]
  | reserved (hi : encodeIntent J H i = .ok bytes) (hh : i.intendedHead = J.head head)
      (he : i.expectedToken = expected) :
      Preparing J H head expected f [.syncDir, .writeIntent bytes, .syncDir]
  | write (hi : encodeIntent J H i = .ok bytes) (hh : i.intendedHead = J.head head)
      (he : i.expectedToken = expected) :
      Preparing J H head expected f [.writeIntent bytes, .syncDir]
  | written (hi : encodeIntent J H i = .ok bytes) (hh : i.intendedHead = J.head head)
      (he : i.expectedToken = expected) (hv : f.intent.visible = some bytes) :
      Preparing J H head expected f [.syncDir]
  | prepared (hi : encodeIntent J H i = .ok bytes) (hh : i.intendedHead = J.head head)
      (he : i.expectedToken = expected) (hv : f.intent = ⟨some bytes, some bytes⟩) :
      Preparing J H head expected f []

def Underway (J : Json) (H : Digest) (w : Site) (m : Memory) (head : Head) : Prop :=
  ∃ i bytes, encodeIntent J H i = .ok bytes ∧ i.intendedHead = J.head head ∧
    i.expectedToken = m.token ∧ w.files.intent = ⟨some bytes, some bytes⟩ ∧
    Names w.history w.taken i

def Phase (J : Json) (H : Digest) (w : Site) : Prop :=
  match w.stage with
  | .down => w.ops = []
  | .opening => w.ops = [.syncDir] ∨ w.ops = [] ∧ w.files.Settled
  | .checking b i _ => Names w.history w.taken i ∧ w.files.binding = ⟨b, b⟩ ∧
      (w.ops = [] ∧ w.files.Pending ∨ Finishing J w.taken w.files b w.ops)
  | .resolving m => w.ops = [] ∧ (m.fenced.isSome ∨ m.attached = false) ∨
      Finishing J w.taken w.files m.binding w.ops
  | .opened _ => w.ops = []
  | .preparing m head => w.taken = none ∧ Preparing J H head m.token w.files w.ops
  | .abandoning _ => w.taken = none ∧ ∀ op ∈ w.ops, op ∈ removePendingPublication
  | .intended m head => w.ops = [] ∧ w.taken = none ∧ Underway J H w m head
  | .unsure m head | .swapped m _ head => w.ops = [] ∧ Underway J H w m head
  | .saving _ m => Finishing J w.taken w.files m.binding w.ops

theorem Names.none : Names history none i := nofun

theorem Names.cons (h : Names history taken i) : Names (c :: history) taken i := by
  rintro x hx
  obtain ⟨newer, older, rfl, hn⟩ := h x hx
  exact ⟨c :: newer, older, rfl, hn⟩

theorem Names.moved (h : Names history (some c) i) (hf : (history.map Current.token).Nodup) :
    history.head?.map Current.token ≠ i.expectedToken := by
  obtain ⟨newer, older, rfl, -, he⟩ := h c rfl
  rw [he]
  cases older with
  | nil => cases newer <;> simp
  | cons o older =>
    cases newer with
    | nil =>
      simp only [List.nil_append, List.map_cons, List.nodup_cons, List.mem_cons, not_or] at hf
      simpa using hf.1.1
    | cons d newer =>
      simp only [List.cons_append, List.map_cons, List.map_append, List.nodup_cons, List.mem_append,
        List.mem_cons, not_or] at hf
      simpa using hf.1.2.2.1

theorem Names.boundTo (h : Names history taken i) (hx : J.head x.head = i.intendedHead) :
    BoundTo J taken (some x) := by
  intro c hc
  obtain ⟨-, -, -, hi, -⟩ := h c hc
  exact ⟨x, rfl, hx.trans hi⟩

theorem Files.apply_intent {f : Files} (h : (f.apply op).intent.visible = some bytes ∨
    (f.apply op).intent.durable = some bytes) :
    f.intent.visible = some bytes ∨ f.intent.durable = some bytes ∨ op = .writeIntent bytes := by
  cases op with
  | writeIntent b =>
    rcases h with h | h
    · cases h
      exact .inr (.inr rfl)
    · exact .inr (.inl h)
  | removeIntent =>
    rcases h with h | h
    · cases h
    · exact .inr (.inl h)
  | syncDir => exact .inl (h.elim id id)
  | reserve n => exact h.imp id .inl
  | shrink n => exact h.imp id .inl
  | bind b => exact h.imp id .inl
  | replaceBinding b => exact h.imp id .inl
  | removeReservation => exact h.imp id .inl

theorem Finishing.apply (h : Finishing J taken f b (op :: rest)) :
    Finishing J taken (f.apply op) b rest := by
  cases h with
  | shrink hb hc hi => exact .bind hb hc hi
  | bind hb hc hi => exact .sync hb.symm hc hi
  | sync hb hc hi => exact .remove (by simp [Files.apply, Entry.sync, hb]) hc
  | remove hb hc => exact .removed hb hc rfl
  | removed hb hc hi => exact .synced hb hc hi rfl
  | synced hb hc hi hr =>
    exact .done (by simp [Files.apply, Entry.sync, hb]) hc
      (by simp [Files.apply, Entry.sync, hi]) hr

theorem Finishing.covered (h : Finishing J taken f b ops) : f.Pending ∨
    (f.binding.visible = f.binding.durable ∧ BoundTo J taken f.binding.durable) := by
  cases h with
  | shrink _ _ hi | bind _ _ hi | sync _ _ hi => exact .inl hi
  | remove hb hc => exact .inr (by simpa [hb] using hc)
  | removed hb hc _ => exact .inr (by simpa [hb] using hc)
  | synced hb hc _ _ => exact .inr (by simpa [hb] using hc)
  | done hb hc _ _ => exact .inr (by simpa [hb] using hc)

theorem Finishing.no_intent (h : Finishing J taken f b (op :: rest)) : op ≠ .writeIntent bytes := by
  cases h <;> nofun

theorem Preparing.apply (h : Preparing J H head expected f (op :: rest)) :
    Preparing J H head expected (f.apply op) rest := by
  cases h with
  | reserve hi hh he => exact .reserved hi hh he
  | reserved hi hh he => exact .write hi hh he
  | write hi hh he => exact .written hi hh he rfl
  | written hi hh he hv => exact .prepared hi hh he (by simp [Files.apply, Entry.sync, hv])

theorem Preparing.intent (h : Preparing J H head expected f (.writeIntent bytes :: rest)) :
    ∃ i, encodeIntent J H i = .ok bytes := by
  cases h with
  | write hi _ _ => exact ⟨_, hi⟩

namespace Protected

theorem cons (h : Protected J H f history taken) (hc : ∀ x ∈ history, x.token ≠ c.token) :
    Protected J H f (c :: history) taken where
  fresh := List.nodup_cons.mpr ⟨by simpa using hc, h.fresh⟩
  intent bytes hb := (h.intent bytes hb).imp fun _ => And.imp id Names.cons
  covered := h.covered

theorem apply (h : Protected J H f history taken) (hn : ∀ bytes, op ≠ .writeIntent bytes)
    (hc : taken.isSome → (f.apply op).Pending ∨ ((f.apply op).binding.visible =
      (f.apply op).binding.durable ∧ BoundTo J taken (f.apply op).binding.durable)) :
    Protected J H (f.apply op) history taken where
  fresh := h.fresh
  intent bytes hb := by
    rcases Files.apply_intent hb with hb | hb | hb
    · exact h.intent bytes (.inl hb)
    · exact h.intent bytes (.inr hb)
    · exact absurd hb (hn bytes)
  covered := hc

theorem finishing (h : Protected J H f history taken) (hf : Finishing J taken f b (op :: rest)) :
    Protected J H (f.apply op) history taken :=
  h.apply (fun _ => hf.no_intent) fun _ => hf.apply.covered

theorem preparing (h : Protected J H f history none)
    (hp : Preparing J H head expected f (op :: rest)) :
      Protected J H (f.apply op) history none where
  fresh := h.fresh
  intent bytes hb := by
    rcases Files.apply_intent hb with hb | hb | rfl
    · exact h.intent bytes (.inl hb)
    · exact h.intent bytes (.inr hb)
    · obtain ⟨i, hi⟩ := hp.intent
      exact ⟨i, hi, .none⟩
  covered := nofun

theorem sync (h : Protected J H f history taken) :
    Protected J H (f.apply .syncDir) history taken := by
  refine h.apply nofun fun ht => (h.covered ht).imp ?_ ?_
  · exact fun hp => ⟨rfl, hp.2⟩
  · rintro ⟨hb, hc⟩
    exact ⟨rfl, show BoundTo J taken f.binding.visible from hb ▸ hc⟩

theorem crash (h : Protected J H f history taken) (hc : f.Crash f') :
    Protected J H f' history taken := by
  cases hc with
  | kill => exact h
  | power hi hr hb =>
    refine ⟨h.fresh, fun bytes hx => h.intent bytes ?_, fun ht => (h.covered ht).imp ?_ ?_⟩
    · rcases hi with rfl | rfl <;> simp at hx <;> simp [hx]
    · rintro ⟨h₁, h₂⟩
      rcases hi with rfl | rfl <;> simp [Files.Pending, ← h₁, h₂]
    · rintro ⟨h₁, h₂⟩
      rcases hb with rfl | rfl <;> simp [h₁, h₂]

theorem forget (h : Protected J H f history taken) : Protected J H f history none where
  fresh := h.fresh
  intent bytes hb := (h.intent bytes hb).imp fun _ => And.imp id fun _ => .none
  covered := nofun

end Protected

-- The steps

structure Safe (J : Json) (H : Digest) (w : Site) : Prop where
  honest : Honest J H w
  files : Protected J H w.files w.history w.taken
  phase : Phase J H w

theorem Safe.exec (hw : Safe J H w) (h : w.ops = op :: rest) :
    Protected J H (w.files.apply op) w.history w.taken := by
  have hp := hw.phase
  unfold Phase at hp
  rw [h] at hp
  cases hs : w.stage with
  | down | opened m | intended m head | unsure m head | swapped m token head =>
    simp [hs] at hp
  | opening =>
    simp only [hs, reduceCtorEq, false_and, or_false, List.cons.injEq] at hp
    obtain ⟨rfl, -⟩ := hp
    exact hw.files.sync
  | checking b i head =>
    simp only [hs, reduceCtorEq, false_and, false_or] at hp
    exact hw.files.finishing hp.2.2
  | resolving m =>
    simp only [hs, reduceCtorEq, false_and, false_or] at hp
    exact hw.files.finishing hp
  | saving m m' =>
    simp only [hs] at hp
    exact hw.files.finishing hp
  | preparing m head =>
    simp only [hs] at hp
    have hf := hw.files
    rw [hp.1] at hf ⊢
    exact hf.preparing hp.2
  | abandoning m =>
    simp only [hs] at hp
    have hf := hw.files
    rw [hp.1] at hf ⊢
    refine hf.apply (fun bytes hb => ?_) nofun
    have hm := hp.2 op List.mem_cons_self
    rw [hb] at hm
    simp [removePendingPublication] at hm

theorem Phase.exec (hp : Phase J H w) (h : w.ops = op :: rest) :
    Phase J H { w with files := w.files.apply op, ops := rest } := by
  unfold Phase at hp ⊢
  rw [h] at hp
  cases hs : w.stage with
  | down | opened m | intended m head | unsure m head | swapped m token head => simp [hs] at hp
  | opening =>
    simp only [hs, reduceCtorEq, false_and, or_false, List.cons.injEq] at hp
    obtain ⟨rfl, rfl⟩ := hp
    exact .inr ⟨rfl, rfl, rfl, rfl⟩
  | checking b i head =>
    simp only [hs, reduceCtorEq, false_and, false_or] at hp
    have hf := hp.2.2.apply
    refine ⟨hp.1, ?_, .inr hf⟩
    cases hp.2.2 with
    | shrink hb hc hi => exact hp.2.1
    | bind hb hc hi => simpa [Files.apply, hp.2.1] using hb.symm
    | sync hb hc hi => simp [Files.apply, Entry.sync, hp.2.1]
    | remove hb hc => exact hp.2.1
    | removed hb hc hi => exact hp.2.1
    | synced hb hc hi hr => simp [Files.apply, Entry.sync, hp.2.1]
  | resolving m =>
    simp only [hs, reduceCtorEq, false_and, false_or] at hp
    exact .inr hp.apply
  | saving m m' =>
    simp only [hs] at hp
    exact hp.apply
  | preparing m head =>
    simp only [hs] at hp
    exact ⟨hp.1, hp.2.apply⟩
  | abandoning m =>
    simp only [hs] at hp
    exact ⟨hp.1, fun o ho => hp.2 o (List.mem_cons_of_mem _ ho)⟩

theorem Phase.fails {s : Stage} (hp : Phase J H w) (hw : w.stage = s) (hs : s.Fails stage ops) :
    Phase J H { w with files := f, stage := stage, ops := ops } := by
  unfold Phase at hp
  cases hs with
  | opening | checking | resolving | abandoning | install | clear => rfl
  | reserve =>
    simp only [hw] at hp
    exact ⟨hp.1, by simp [removePendingPublication]⟩
  | write =>
    simp only [hw] at hp
    exact ⟨hp.1, fun _ => id⟩

theorem Phase.elsewhere (hp : Phase J H w) : Phase J H { w with history := c :: w.history } := by
  unfold Phase at hp ⊢
  cases hs : w.stage with
  | checking b i head =>
    simp only [hs] at hp
    exact ⟨hp.1.cons, hp.2⟩
  | intended m head =>
    simp only [hs] at hp
    obtain ⟨ho, ht, i, bytes, hi, hh, he, hv, hn⟩ := hp
    exact ⟨ho, ht, i, bytes, hi, hh, he, hv, hn.cons⟩
  | unsure m head | swapped m token head =>
    simp only [hs] at hp
    obtain ⟨ho, i, bytes, hi, hh, he, hv, hn⟩ := hp
    exact ⟨ho, i, bytes, hi, hh, he, hv, hn.cons⟩
  | down | opening | resolving m | opened m | preparing m head | abandoning m | saving m m' =>
    simpa only [hs] using hp

theorem Entry.eq_visible {e : Entry α} (h : e.visible = e.durable) :
    e = ⟨e.visible, e.visible⟩ := by
  cases e
  cases h
  rfl

theorem Safe.settled (hw : Safe J H w) (hs : w.stage = .opening) (ho : w.ops = []) :
    w.files.Settled := by
  have hp := hw.phase
  simp only [Phase, hs, ho, true_and] at hp
  exact hp.resolve_left nofun

theorem Safe.loaded (hw : Safe J H w) (hs : w.files.Settled) (hi : w.files.intent.visible = none) :
    w.files.binding = ⟨w.files.binding.visible, w.files.binding.visible⟩ ∧
      BoundTo J w.taken w.files.binding.visible ∧ w.files.intent = ⟨none, none⟩ := by
  obtain ⟨h₁, -, h₃⟩ := hs
  refine ⟨Entry.eq_visible h₃, fun c hc => ?_, hi ▸ Entry.eq_visible h₁⟩
  rcases hw.files.covered (by simp [hc]) with hp | ⟨-, hb⟩
  · simp [Files.Pending, hi] at hp
  · exact h₃ ▸ hb c hc

theorem safe_load (hw : Safe J H w) (hset : w.files.Settled)
    (hb : readBinding J isUuid loc w.files = .ok b) (hi : readIntent J H w.files = .ok none) :
    Finishing J w.taken w.files b
      (if w.files.reservation.visible.isSome then [.removeReservation, .syncDir] else []) := by
  have hnone := readIntent_none hi
  obtain ⟨hbind, hc, hint⟩ := hw.loaded hset hnone
  rw [← readBinding_ok hb] at hbind hc
  split
  · exact .removed hbind hc hnone
  next hr => exact .done hbind hc hint (by simpa using hr)

theorem safe_check (hw : Safe J H w) (hset : w.files.Settled)
    (hb : readBinding J isUuid loc w.files = .ok b) (hi : readIntent J H w.files = .ok (some i))
    (hc : checkIntent J (some current) b i intended = .ok ops) :
    Names w.history w.taken i ∧ w.files.binding = ⟨b, b⟩ ∧
      (ops = [] ∧ w.files.Pending ∨ Finishing J w.taken w.files b ops) := by
  obtain ⟨h₁, -, h₃⟩ := hset
  obtain ⟨bytes, hv, hd⟩ := readIntent_some hi
  obtain ⟨j, hj, hn⟩ := hw.files.intent bytes (.inl hv)
  obtain rfl := decodeIntent_encodeIntent hj hd
  have hbind : w.files.binding = ⟨b, b⟩ := readBinding_ok hb ▸ Entry.eq_visible h₃
  refine ⟨hn, hbind, ?_⟩
  rcases checkIntent_ok hc with rfl | ⟨rfl, x, rfl, hx⟩
  · exact .inl ⟨rfl, h₁, by simp [hv]⟩
  · exact .inr (.remove hbind (hn.boundTo hx))

theorem safe_resolve (hw : Safe J H w) (hs : w.stage = .checking b i intended) (ho : w.ops = [])
    (hr : resolveIntent J w.files w.current b i intended = .ok (ops, b', fenced)) :
    ops = [] ∧ (fenced.isSome ∨ true = false) ∨ Finishing J w.taken w.files b' ops := by
  have hp := hw.phase
  simp only [Phase, hs, ho, true_and] at hp
  obtain ⟨hn, hbind, hf⟩ := hp
  rcases resolveIntent_ok hr with ⟨c, -, -, -, ⟨rfl, rfl, x, rfl, hx⟩ | ⟨hres, rfl, n, rfl⟩⟩ |
    ⟨hu, rfl, rfl, -⟩ | ⟨rfl, rfl, hfence⟩
  · exact .inr (.remove hbind (hn.boundTo hx))
  · rcases hf with hp | hf
    · exact .inr (.shrink rfl (hn.boundTo (hw.honest.checked _ _ _ hs)) hp)
    · cases hf with
      | done _ _ _ hnone => simp [hnone] at hres
  · refine .inr (.remove hbind fun c hc => ?_)
    rw [hc] at hn
    exact absurd hu (hn.moved hw.files.fresh)
  · exact .inl ⟨rfl, .inl hfence⟩

theorem safe_swap (hw : Safe J H w) (hs : w.stage = .intended m head)
    (he : w.current.map Current.token = m.token) (hc : ∀ x ∈ w.history, x.token ≠ token) :
    Protected J H w.files (⟨token, J.head head⟩ :: w.history) (some ⟨token, J.head head⟩) ∧
      ∀ stage, Underway J H { w with
        history := ⟨token, J.head head⟩ :: w.history
        taken := some ⟨token, J.head head⟩
        stage := stage } m head := by
  have hp := hw.phase
  simp only [Phase, hs] at hp
  obtain ⟨-, -, i, bytes, hi, hh, hexp, hv, -⟩ := hp
  have hn : Names (⟨token, J.head head⟩ :: w.history) (some ⟨token, J.head head⟩) i := by
    rintro c ⟨⟩
    exact ⟨[], w.history, rfl, hh, hexp.trans he.symm⟩
  refine ⟨⟨?_, ?_, ?_⟩, fun _ => ⟨i, bytes, hi, hh, hexp, hv, hn⟩⟩
  · exact List.nodup_cons.mpr ⟨by simpa using hc, hw.files.fresh⟩
  · rintro b hb
    rw [hv] at hb
    cases hb.elim id id
    exact ⟨i, hi, hn⟩
  · exact fun _ => .inl (by simp [Files.Pending, hv])

theorem safe_rejected (hw : Safe J H w) (hs : w.stage = .unsure m head)
    (hu : w.current.map Current.token = m.token) : w.taken = none := by
  have hp := hw.phase
  simp only [Phase, hs] at hp
  obtain ⟨-, i, bytes, -, -, hexp, -, hn⟩ := hp
  cases ht : w.taken with
  | none => rfl
  | some c =>
    rw [ht] at hn
    exact absurd (hu.trans hexp.symm) (hn.moved hw.files.fresh)

theorem safe_save (hw : Safe J H w) (hs : w.stage = .swapped m token head)
    (hv : saveBinding J H w.files token head = .ok ops) :
    Finishing J w.taken w.files (some ⟨token, head⟩) ops := by
  have hp := hw.phase
  simp only [Phase, hs] at hp
  obtain ⟨-, i, bytes, -, hh, -, hint, hn⟩ := hp
  rcases saveBinding_ok hv with ⟨n, rfl⟩ | ⟨hnone, -⟩
  · exact .shrink rfl (hn.boundTo hh.symm) (by simp [Files.Pending, hint])
  · simp [hint] at hnone

theorem safe_step (hw : Safe J H w) (h : Publish J H isUuid w w') :
    Safe J H w' := by
  have hon := honest_step hw.honest h
  have hp := hw.phase
  cases h with
  | elsewhere hc => exact ⟨hon, hw.files.cons hc, hp.elsewhere⟩
  | crash h => exact ⟨hon, hw.files.crash h, rfl⟩
  | exec h => exact ⟨hon, hw.exec h, hp.exec h⟩
  | ioError h hf hs =>
    refine ⟨hon, ?_, hp.fails rfl hs⟩
    rcases hf with rfl | rfl
    · exact hw.files
    · exact hw.exec h
  | enter hs => exact ⟨hon, hw.files, .inl rfl⟩
  | load hs ho hb hi =>
    have hf := safe_load hw (hw.settled hs ho) hb hi
    exact ⟨hon, hw.files, .inr hf⟩
  | check hs ho hb hi hv hc =>
    have hf := safe_check hw (hw.settled hs ho) hb hi hc
    exact ⟨hon, hw.files, hf⟩
  | detached hs ho hb hi hv hc => exact ⟨hon, hw.files, .inl ⟨rfl, .inr rfl⟩⟩
  | resolve hs ho hr =>
    have hf := safe_resolve hw hs ho hr
    exact ⟨hon, hw.files, hf⟩
  | opened hs ho => exact ⟨hon, hw.files, ho⟩
  | prepare hs hf hatt hpr =>
    obtain ⟨i, bytes, n, hi, hh, he, rfl⟩ := preparePublicationIntent_ok hpr
    exact ⟨hon, hw.files.forget, rfl, .reserve hi hh he⟩
  | prepared hs ho =>
    simp only [Phase, hs, ho] at hp
    obtain ⟨ht, hpr⟩ := hp
    cases hpr with
    | prepared hi hh he hv =>
      refine ⟨hon, hw.files, ho, ht, _, _, hi, hh, he, hv, ?_⟩
      rw [ht]
      exact .none
  | abandoned hs ho => exact ⟨hon, hw.files, ho⟩
  | swap token reason hs he hc hst =>
    obtain ⟨hf, hu⟩ := safe_swap hw hs he hc
    refine ⟨hon, hf, ?_⟩
    simp only [Phase, hs] at hp
    rcases hst with ⟨rfl, -⟩ | rfl | rfl
    · exact ⟨hp.1, hu _⟩
    · exact hp.1
    · exact ⟨hp.1, hu _⟩
  | swapError hs =>
    simp only [Phase, hs] at hp
    exact ⟨hon, hw.files, hp.1, hp.2.2⟩
  | committed hs hc ht =>
    simp only [Phase, hs] at hp
    exact ⟨hon, hw.files, hp⟩
  | rejected hs hn hu =>
    have ht := safe_rejected hw hs hu
    exact ⟨hon, hw.files, ht, fun _ => id⟩
  | ambiguous reason hs =>
    simp only [Phase, hs] at hp
    exact ⟨hon, hw.files, hp.1⟩
  | save hs hv =>
    have hf := safe_save hw hs hv
    exact ⟨hon, hw.files, hf⟩
  | unsaved hs =>
    simp only [Phase, hs] at hp
    exact ⟨hon, hw.files, hp.1⟩
  | saved hs ho => exact ⟨hon, hw.files, ho⟩

theorem safe_start (h : w.Start J) : Safe J H w := by
  have hon := honest_start (H := H) h
  obtain ⟨hs, ho, ht, hf, ⟨hi, -, -⟩, hn, -⟩ := h
  refine ⟨hon, ⟨hf, ?_, by simp [ht]⟩, by simpa only [Phase, hs] using ho⟩
  rintro bytes hx
  rw [← hi, or_self, hn] at hx
  cases hx

theorem safe_reachable (h : (publication J H isUuid).Reachable w) : Safe J H w :=
  h.invariant (fun _ => safe_start) fun _ _ _ hi hs => safe_step hi hs

/-- A swap that took effect is bound to, or its intent is still there, in every run. -/
theorem publication_recovers (h : (publication J H isUuid).Reachable w) :
    (∀ b, w.files.binding.visible = some b ∨ w.files.binding.durable = some b ∨
      b ∈ w.stage.bindings → w.Held J b) ∧
    (∀ b i head ops b' fenced, w.stage = .checking b i head →
      resolveIntent J w.files w.current b i head = .ok (ops, b', fenced) →
      b' = b ∨ ∃ c, w.current = some c ∧ b' = some ⟨c.token, head⟩ ∧ J.head head = c.bytes) ∧
    (∀ m, w.stage = .resolving m → w.ops = [] → m.attached = true → m.fenced = none →
      w.files.intent = ⟨none, none⟩ ∧ w.files.binding = ⟨m.binding, m.binding⟩ ∧
      ∀ c, w.taken = some c → ∃ b, m.binding = some b ∧ J.head b.head = c.bytes) ∧
    (∀ c, w.taken = some c → w.files.intent.visible = none ∨ w.files.intent.durable = none →
      ∃ b, w.files.binding.durable = some b ∧ J.head b.head = c.bytes) := by
  have hw := safe_reachable h
  refine ⟨fun b hb => ?_, fun b i head ops b' fenced hs hr => ?_, fun m hs ho ha hf => ?_,
    fun c hc hi => ?_⟩
  · rcases hb with hb | hb | hb
    · exact hw.honest.binding b (.inl hb)
    · exact hw.honest.binding b (.inr hb)
    · exact hw.honest.stage b hb
  · rcases resolveIntent_ok hr with ⟨c, hc, hbytes, -, ⟨-, hb, -⟩ | ⟨-, hb, -⟩⟩ |
      ⟨-, -, hb, -⟩ | ⟨-, hb, -⟩
    · exact .inl hb
    · exact .inr ⟨c, hc, hb, (hw.honest.checked _ _ _ hs).trans hbytes.symm⟩
    · exact .inl hb
    · exact .inl hb
  · have hp := hw.phase
    simp only [Phase, hs, ho, hf, ha] at hp
    rcases hp with ⟨-, hp⟩ | hp
    · simp at hp
    · cases hp with
      | done hb hc hi hr => exact ⟨hi, hb, hc⟩
  · rcases hw.files.covered (by simp [hc]) with ⟨hv, hsome⟩ | ⟨-, hb⟩
    · rcases hi with hi | hi
      · simp [hi] at hsome
      · simp [hv, hi] at hsome
    · exact hb c hc

theorem run_ops (n : Nat) : ∀ w, (publication J H isUuid).Reachable w →
    (publication J H isUuid).Reachable { w with
      files := (w.ops.take n).foldl Files.apply w.files
      ops := w.ops.drop n } := by
  induction n with
  | zero => exact fun w h => h
  | succ n ih =>
    intro w h
    cases ho : w.ops with
    | nil =>
      have hw : w = { w with ops := [] } := by rw [← ho]
      rw [hw] at h
      simpa using h
    | cons op rest => exact ih _ (h.step (a := ()) (.exec ho))

-- A publisher that is killed after the rename of its binding

namespace Killed

def head (sequence : Nat) : Head where
  sequence := sequence
  wal := []
  journal := []
  formatVersion := 1
  databaseId := "d".toList
  owner := "o".toList
  checkpoint :=
    ⟨"manifests/".toList ++ List.replicate 64 'a' ++ ".bin".toList, List.replicate 64 'a', 10⟩
  lock := none

def intent : PublicationIntent where
  formatVersion := 1
  rootDigest := "r".toList
  databaseId := "d".toList
  owner := "o".toList
  sequence := 2
  expectedToken := some "t1".toList
  intendedHeadDigest := Text.toHex (Journal.blake3.hash [2])
  intendedHead := [2]
  bindingReservationBytes := 100 + 64 * 1024 * 6

def json : Json where
  head h := if h = head 1 then [1] else if h = head 2 then [2] else [0]
  readHead b := if b = [1] then .ok (head 1) else if b = [2] then .ok (head 2) else .error "head"
  intent i := if i = intent then [1] else [0]
  readIntent b := if b = [1] then .ok intent else .error "intent"
  bindingLength _ := 100
  readHead_head {h h'} hr := by
    split at hr
    next h₁ => simp_all
    next h₁ =>
      split at hr
      next h₂ => simp_all
      next h₂ => simp at hr
  readIntent_intent {i i'} hr := by
    split at hr
    next h₁ => simp_all
    next h₁ => simp at hr

def loc : Local := ⟨"r".toList, "d".toList, 5⟩

def first : Binding := ⟨"t1".toList, head 1⟩

def second : Binding := ⟨"t2".toList, head 2⟩

def start : Site where
  files := ⟨⟨none, none⟩, ⟨none, none⟩, ⟨some first, some first⟩⟩
  history := [⟨"t1".toList, [1]⟩]
  taken := none
  stage := .down
  ops := []

def frame : Bytes :=
  intentMagic ++ Bytes.le64 1 ++ [1] ++ Journal.blake3.hash (intentMagic ++ Bytes.le64 1 ++ [1])

/-- The intent of the second head on disk, before the swap. -/
def pending : Site where
  files := ⟨⟨some frame, some frame⟩, ⟨some (100 + 64 * 1024 * 6), some (100 + 64 * 1024 * 6)⟩,
    ⟨some first, some first⟩⟩
  history := [⟨"t1".toList, [1]⟩]
  taken := none
  stage := .intended ⟨some first, none, true⟩ (head 2)
  ops := []

/-- The same, swapped, with the binding renamed and the directory not synced. -/
def renamed : Site where
  files := ⟨⟨some frame, some frame⟩, ⟨none, some 100⟩, ⟨some second, some first⟩⟩
  history := [⟨"t2".toList, [2]⟩, ⟨"t1".toList, [1]⟩]
  taken := some ⟨"t2".toList, [2]⟩
  stage := .saving ⟨some first, none, true⟩ ⟨some second, none, true⟩
  ops := .syncDir :: removePendingPublication

/-- Reopened: the intent and the reservation are gone, and the binding is durable. -/
def recovered : Site where
  files := ⟨⟨none, none⟩, ⟨none, none⟩, ⟨some second, some second⟩⟩
  history := [⟨"t2".toList, [2]⟩, ⟨"t1".toList, [1]⟩]
  taken := some ⟨"t2".toList, [2]⟩
  stage := .resolving ⟨some second, none, true⟩
  ops := []

abbrev Reached : Site → Prop := (publication json Journal.blake3 fun _ => true).Reachable

theorem Reached.next (h : Reached w) (hs : Publish json Journal.blake3 (fun _ => true) w w') :
    Reached w' :=
  .step (a := ()) h hs

theorem pending_reachable : Reached pending := by
  have h0 : Reached start := by
    refine .init ⟨rfl, rfl, rfl, by decide, ⟨rfl, rfl, rfl⟩, rfl, ?_⟩
    rintro b ⟨⟩
    exact List.mem_singleton.mpr (by decide +kernel)
  have hb : readBinding json (fun _ => true) loc start.files = .ok (some first) := by
    decide +kernel
  have h1 : Reached { start with stage := .opening } := run_ops 1 _ (h0.next (.enter rfl))
  have h2 : Reached { start with stage := .resolving ⟨some first, none, true⟩ } :=
    h1.next (.load rfl rfl hb rfl)
  have h3 : Reached { start with stage := .opened ⟨some first, none, true⟩ } :=
    h2.next (.opened rfl rfl)
  have hp : preparePublicationIntent json Journal.blake3 loc start.files ⟨some first, none, true⟩
      (head 2) = .ok [.reserve (100 + 64 * 1024 * 6), .syncDir, .writeIntent frame, .syncDir] := by
    decide +kernel
  have h4 : Reached _ := run_ops 4 _ (h3.next (.prepare rfl rfl rfl hp))
  exact h4.next (.prepared rfl rfl)

theorem renamed_reachable : Reached renamed := by
  have hj : json.head (head 2) = [2] := by decide +kernel
  have h1 : Reached { pending with
      history := [⟨"t2".toList, [2]⟩, ⟨"t1".toList, [1]⟩]
      taken := some ⟨"t2".toList, [2]⟩
      stage := .swapped ⟨some first, none, true⟩ "t2".toList (head 2) } := by
    have := pending_reachable.next (.swap "t2".toList "" rfl (by decide +kernel)
      (by decide +kernel) (.inl ⟨rfl, by decide +kernel⟩))
    rwa [hj] at this
  have hs : saveBinding json Journal.blake3 pending.files "t2".toList (head 2) =
      .ok ([.shrink 100, .bind second, .syncDir] ++ removePendingPublication) := by decide +kernel
  exact run_ops 2 _ (h1.next (.save rfl hs))

theorem recovered_reachable : Reached recovered := by
  have h1 := renamed_reachable.next (.crash .kill)
  have h2 : Reached _ := run_ops 1 _ (h1.next (.enter rfl))
  have hb : readBinding json (fun _ => true) loc ⟨⟨some frame, some frame⟩, ⟨none, none⟩,
      ⟨some second, some second⟩⟩ = .ok (some second) := by decide +kernel
  have hi : readIntent json Journal.blake3 renamed.files = .ok (some intent) := by decide +kernel
  have hv : validateIntent json (fun _ => true) loc intent = .ok (head 2) := by decide +kernel
  have hc : checkIntent json (some renamed.current) (some second) intent (head 2) =
      .ok removePendingPublication := by decide +kernel
  have h3 : Reached _ := run_ops 3 _ (h2.next (.check rfl rfl hb hi hv hc))
  have hr : resolveIntent json ⟨⟨none, none⟩, ⟨none, none⟩, ⟨some second, some second⟩⟩
      renamed.current (some second) intent (head 2) =
      .ok (removePendingPublication, some second, none) := by decide +kernel
  exact run_ops 3 _ (h3.next (.resolve rfl rfl hr))

end Killed

open Killed in
/-- The process is killed after the rename and before the sync of the directory, and reopened. -/
theorem publication_recovers_renamed : recovered.files.intent = ⟨none, none⟩ ∧
    ∃ b, recovered.files.binding.durable = some b ∧ json.head b.head = [2] := by
  obtain ⟨-, -, hr, -⟩ := publication_recovers recovered_reachable
  obtain ⟨hi, hb, hc⟩ := hr _ rfl rfl rfl rfl
  obtain ⟨b, hm, hh⟩ := hc _ rfl
  exact ⟨hi, b, by rw [hb, hm], hh⟩

end Varve.Tier
