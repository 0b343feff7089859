import Varve.Memory.Budget

/-!
# Credit conservation

The totals of the budget are the sums over the outstanding objects.
-/

namespace Varve.Memory

open Engine (StoredRow)
open Result (ok_bind)

-- The totals

namespace RawReservation

def workingBytes (r : RawReservation) : Nat := if r.working then r.bytes else 0

def liveBytes (r : RawReservation) : Nat := if r.live then r.bytes else 0

def nothing : RawReservation := ⟨0, false, false⟩

theorem workingBytes_le (r : RawReservation) : r.workingBytes ≤ r.bytes := by
  unfold workingBytes
  split <;> omega

end RawReservation

structure RawMemoryStatus.Bounded (s : RawMemoryStatus) : Prop where
  part : s.workingBytes ≤ s.reservedBytes
  ordinary : s.reservedBytes ≤ s.workingBytes + s.limitBytes
  working : s.workingBytes ≤ s.workingLimitBytes
  limits : s.limitBytes + s.workingLimitBytes ≤ usizeMax

/-- The totals after a credit has taken another's place. -/
structure Exchange (r r' : RawReservation) (s s' : RawMemoryStatus) : Prop where
  reserved : s'.reservedBytes + r.bytes = s.reservedBytes + r'.bytes
  working : s'.workingBytes + r.workingBytes = s.workingBytes + r'.workingBytes
  live : s'.liveBytes + r.liveBytes = s.liveBytes + r'.liveBytes
  pinned : s'.pinnedBytes = s.pinnedBytes
  limit : s'.limitBytes = s.limitBytes
  workingLimit : s'.workingLimitBytes = s.workingLimitBytes

structure Covers (s : RawMemoryStatus) (r : RawReservation) : Prop where
  working : r.workingBytes ≤ s.workingBytes
  ordinary : r.bytes + s.workingBytes ≤ s.reservedBytes + r.workingBytes
  live : r.liveBytes ≤ s.liveBytes

theorem plus_ok (h : a + b ≤ usizeMax) : plus a b = .ok (a + b) := if_pos h

theorem minus_ok (h : b ≤ a) : minus a b = .ok (a - b) := if_pos h

namespace RawMemoryStatus

variable {s s' : RawMemoryStatus} {r : RawReservation}

theorem replace_ok {fresh : Nat} (ho : old ≤ total) (hn : total + fresh ≤ usizeMax + old) :
    replace total old fresh = .ok (total - old + fresh) := by
  rw [replace, minus_ok ho, ok_bind, plus_ok (by omega)]

/-- The bytes that credit of a class has taken from its pool. -/
def inUse (s : RawMemoryStatus) (working : Bool) : Nat :=
  if working then s.workingBytes else s.reservedBytes - s.workingBytes

theorem used_ok (hs : s.Bounded) (working : Bool) : s.used working = .ok (s.inUse working) := by
  cases working with
  | true => rfl
  | false => exact minus_ok hs.part

theorem inUse_le (hs : s.Bounded) (working : Bool) : s.inUse working ≤ s.limit working := by
  obtain ⟨hpart, hordinary, hworking, -⟩ := hs
  cases working with
  | true => simpa [inUse, limit] using hworking
  | false =>
    simp only [inUse, limit, Bool.false_eq_true, if_false]
    omega

theorem bytes_le_inUse (hr : Covers s r) : r.bytes ≤ s.inUse r.working := by
  obtain ⟨hrw, hro, -⟩ := hr
  cases hw : r.working with
  | true => simpa [inUse, RawReservation.workingBytes, hw] using hrw
  | false =>
    simp only [inUse, RawReservation.workingBytes, hw, Bool.false_eq_true, if_false] at hro ⊢
    omega

theorem acquire_spec (hs : s.Bounded) (bytes : Nat) (working : Bool) :
    (∃ e, s.acquire bytes working = .ok (.error e, s.reject)) ∨
    ∃ s', s.acquire bytes working = .ok (.ok ⟨bytes, working, false⟩, s') ∧
      Exchange .nothing ⟨bytes, working, false⟩ s s' ∧ s'.Bounded := by
  have hfits := inUse_le hs working
  rw [acquire, used_ok hs, ok_bind, minus_ok hfits, ok_bind]
  obtain ⟨hpart, hordinary, hworking, hlimits⟩ := hs
  by_cases hfree : s.limit working - s.inUse working < bytes
  · rw [if_pos hfree]
    exact .inl ⟨_, rfl⟩
  · rw [if_neg hfree]
    cases working with
    | true =>
      simp only [inUse, limit, if_true] at hfree hfits
      rw [plus_ok (by omega), ok_bind, onClass, if_pos rfl, plus_ok (by omega), ok_bind]
      refine .inr ⟨_, rfl, ⟨?_, ?_, ?_, rfl, rfl, rfl⟩, ⟨?_, ?_, ?_, hlimits⟩⟩ <;>
        simp [RawReservation.nothing, RawReservation.workingBytes, RawReservation.liveBytes] <;>
        omega
    | false =>
      simp only [inUse, limit, Bool.false_eq_true, if_false] at hfree hfits
      rw [plus_ok (by omega), ok_bind, onClass, if_neg (by simp), ok_bind]
      refine .inr ⟨_, rfl, ⟨?_, ?_, ?_, rfl, rfl, rfl⟩, ⟨?_, ?_, ?_, hlimits⟩⟩ <;>
        simp [RawReservation.nothing, RawReservation.workingBytes, RawReservation.liveBytes] <;>
        omega

theorem refuses_ok (hs : s.Bounded) (hr : Covers s r) :
    s.refuses r bytes = .ok (decide (s.limit r.working + r.bytes < s.inUse r.working + bytes)) := by
  have hle := bytes_le_inUse hr
  have hfits := inUse_le hs r.working
  rw [refuses, used_ok hs, ok_bind]
  by_cases hlarge : s.limit r.working < bytes
  · rw [if_pos hlarge, decide_eq_true (by omega)]
  · rw [if_neg hlarge, minus_ok hle, ok_bind, minus_ok (by omega), ok_bind, Except.ok.injEq,
      decide_eq_decide]
    omega

theorem resize_spec (hs : s.Bounded) (hr : Covers s r) (hl : r.live = false) (bytes : Nat) :
    (∃ e, s.resize r bytes = .ok (.error e, s.reject)) ∨
    ∃ s', s.resize r bytes = .ok (.ok { r with bytes }, s') ∧
      Exchange r { r with bytes } s s' ∧ s'.Bounded := by
  have hle := bytes_le_inUse hr
  have hfits := inUse_le hs r.working
  rw [resize, refuses_ok hs hr, ok_bind]
  obtain ⟨hpart, hordinary, hworking, hlimits⟩ := hs
  obtain ⟨hrw, hro, -⟩ := hr
  by_cases hrefused : s.limit r.working + r.bytes < s.inUse r.working + bytes
  · rw [if_pos (decide_eq_true hrefused)]
    exact .inl ⟨_, rfl⟩
  · rw [if_neg (by simpa using hrefused)]
    cases hw : r.working with
    | true =>
      simp only [hw, limit, inUse, if_true] at hrefused hle hfits
      simp only [RawReservation.workingBytes, hw, if_true] at hrw hro
      rw [replace_ok (by omega) (by omega), ok_bind, onClass, if_pos rfl,
        replace_ok (by omega) (by omega), ok_bind, onClass, hl, if_neg (by simp), ok_bind]
      refine .inr ⟨_, rfl, ⟨?_, ?_, ?_, rfl, rfl, rfl⟩, ⟨?_, ?_, ?_, hlimits⟩⟩ <;>
        simp [RawReservation.workingBytes, RawReservation.liveBytes, hw, hl] <;> omega
    | false =>
      simp only [hw, limit, inUse, Bool.false_eq_true, if_false] at hrefused hle hfits
      simp only [RawReservation.workingBytes, hw, Bool.false_eq_true, if_false] at hrw hro
      rw [replace_ok (by omega) (by omega), ok_bind, onClass, if_neg (by simp), ok_bind, onClass,
        hl, if_neg (by simp), ok_bind]
      refine .inr ⟨_, rfl, ⟨?_, ?_, ?_, rfl, rfl, rfl⟩, ⟨?_, ?_, ?_, hlimits⟩⟩ <;>
        simp [RawReservation.workingBytes, RawReservation.liveBytes, hw, hl] <;> omega

theorem onClass_minus (h : (if inClass then bytes else 0) ≤ total) :
    onClass inClass total (minus · bytes) = .ok (total - if inClass then bytes else 0) := by
  cases inClass with
  | true => exact minus_ok (by simpa using h)
  | false => rfl

theorem refund_spec (hs : s.Bounded) (hr : Covers s r) :
    ∃ s', s.refund r = .ok s' ∧ Exchange r .nothing s s' ∧ s'.Bounded := by
  obtain ⟨hpart, hordinary, hworking, hlimits⟩ := hs
  obtain ⟨hrw, hro, hrl⟩ := hr
  have hrb := r.workingBytes_le
  rw [refund, minus_ok (by omega), ok_bind, onClass_minus hrw, ok_bind, onClass_minus hrl, ok_bind]
  refine ⟨_, rfl, ⟨?_, ?_, ?_, rfl, rfl, rfl⟩, ⟨?_, ?_, ?_, hlimits⟩⟩ <;>
    simp [RawReservation.nothing, RawReservation.workingBytes, RawReservation.liveBytes]
      at hrw hro hrl hrb ⊢ <;>
    omega

end RawMemoryStatus

def RawAllocation.pinnedBytes (x : RawAllocation F) : Nat :=
  if x.pins = 0 then 0 else x.reservation.bytes

def RawHandle.refers (a : Nat) (x : RawHandle) : Nat := if x.allocation = a then 1 else 0

def RawHandle.pins (a : Nat) (x : RawHandle) : Nat :=
  if x.allocation = a ∧ x.pinned = true then 1 else 0

/-- The totals are the sums over the outstanding objects. -/
structure Balanced (p : Pool F) : Prop where
  reserved : p.status.reservedBytes = p.reservations.total RawReservation.bytes +
    p.allocations.total fun x => x.reservation.bytes
  working : p.status.workingBytes = p.reservations.total RawReservation.workingBytes +
    p.allocations.total fun x => x.reservation.workingBytes
  live : p.status.liveBytes = p.allocations.total fun x => x.reservation.bytes
  pinned : p.status.pinnedBytes = p.allocations.total RawAllocation.pinnedBytes

/-- An allocation counts the handles that refer to it and those that pin it. -/
structure Linked (allocations : Slots (RawAllocation F)) (handles : Slots RawHandle) : Prop where
  target : ∀ h x, handles.get h = some x → ∃ y, allocations.get x.allocation = some y
  strong : ∀ a y, allocations.get a = some y → y.strong = handles.total (RawHandle.refers a)
  pins : ∀ a y, allocations.get a = some y → y.pins = handles.total (RawHandle.pins a)

structure Inv (p : Pool F) : Prop where
  balanced : Balanced p
  bounded : p.status.Bounded
  idle : ∀ i r, p.reservations.get i = some r → r.live = false
  attached : ∀ a x, p.allocations.get a = some x → x.reservation.live = true
  linked : Linked p.allocations p.handles

variable {F : Type} {p : Pool F}

theorem Inv.covers (h : Inv p) (hr : p.reservations.get i = some r) : Covers p.status r := by
  obtain ⟨hreserved, hworking, -, -⟩ := h.balanced
  have hb := Slots.total_free (f := RawReservation.bytes) hr
  have hw := Slots.total_free (f := RawReservation.workingBytes) hr
  have hle : (p.reservations.free i).total RawReservation.workingBytes ≤
      (p.reservations.free i).total RawReservation.bytes :=
    Slots.total_mono RawReservation.workingBytes_le
  have hle' : (p.allocations.total fun x => x.reservation.workingBytes) ≤
      p.allocations.total fun x => x.reservation.bytes :=
    Slots.total_mono fun x => x.reservation.workingBytes_le
  refine ⟨by omega, by omega, ?_⟩
  simp [RawReservation.liveBytes, h.idle i r hr]

theorem Inv.covers_allocation (h : Inv p) (hx : p.allocations.get a = some x) :
    Covers p.status x.reservation := by
  obtain ⟨hreserved, hworking, hlive, -⟩ := h.balanced
  have hb := Slots.total_free (f := fun x => x.reservation.bytes) hx
  have hw := Slots.total_free (f := fun x => x.reservation.workingBytes) hx
  have hle : p.reservations.total RawReservation.workingBytes ≤
      p.reservations.total RawReservation.bytes :=
    Slots.total_mono RawReservation.workingBytes_le
  have hle' : ((p.allocations.free a).total fun x => x.reservation.workingBytes) ≤
      (p.allocations.free a).total fun x => x.reservation.bytes :=
    Slots.total_mono fun x => x.reservation.workingBytes_le
  refine ⟨by omega, by omega, ?_⟩
  simp only [RawReservation.liveBytes, h.attached a x hx, if_true]
  omega

-- Handles and allocations

section
variable {allocations : Slots (RawAllocation F)} {handles : Slots RawHandle} {x x' : RawHandle}

theorem Linked.touch (h : Linked allocations handles) (hx : handles.get i = some x)
    (ha : x'.allocation = x.allocation) (hp : x'.pinned = x.pinned) :
    Linked allocations (handles.put i x') where
  target := by
    intro j y hy
    rw [Slots.get_put hx] at hy
    split at hy
    next =>
      cases hy
      exact ha ▸ h.target i x hx
    next => exact h.target j y hy
  strong := by
    intro a y hy
    have ht := Slots.total_put (f := RawHandle.refers a) (b := x') hx
    have he : x'.refers a = x.refers a := by simp [RawHandle.refers, ha]
    rw [h.strong a y hy]
    omega
  pins := by
    intro a y hy
    have ht := Slots.total_put (f := RawHandle.pins a) (b := x') hx
    have he : x'.pins a = x.pins a := by simp [RawHandle.pins, ha, hp]
    rw [h.pins a y hy]
    omega

theorem Linked.total_fresh (h : Linked allocations handles) (ha : allocations.get a = none)
    {f : RawHandle → Nat} (hf : ∀ y : RawHandle, y.allocation ≠ a → f y = 0) :
    handles.total f = 0 := by
  refine Slots.total_eq_zero fun i y hy => hf y ?_
  rintro rfl
  obtain ⟨z, hz⟩ := h.target i y hy
  simp [hz] at ha

theorem Linked.build (h : Linked allocations handles) {y : RawAllocation F} (hs : y.strong = 1)
    (hp : y.pins = 0) :
    Linked (allocations.add y) (handles.add ⟨allocations.length, false, 1⟩) where
  target := by
    intro i x hx
    rw [Slots.get_add] at hx ⊢
    split at hx
    next =>
      cases hx
      exact ⟨y, if_pos rfl⟩
    next =>
      obtain ⟨z, hz⟩ := h.target i x hx
      exact ⟨z, by rw [if_neg (Slots.lt_length hz).ne, hz]⟩
  strong := by
    intro a z hz
    rw [Slots.get_add] at hz
    rw [Slots.total_add]
    split at hz
    next he =>
      cases hz
      have hnone : allocations.get a = none := by simp [Slots.get, he]
      rw [h.total_fresh hnone fun w hw => by simp [RawHandle.refers, hw], hs]
      simp [RawHandle.refers, he]
    next he => simp [h.strong a z hz, RawHandle.refers, Ne.symm he]
  pins := by
    intro a z hz
    rw [Slots.get_add] at hz
    rw [Slots.total_add]
    split at hz
    next he =>
      cases hz
      have hnone : allocations.get a = none := by simp [Slots.get, he]
      rw [h.total_fresh hnone fun w hw => by simp [RawHandle.pins, hw], hp]
      simp [RawHandle.pins]
    next he => simp [h.pins a z hz, RawHandle.pins]

theorem Linked.update (h : Linked allocations handles) (hy : allocations.get a = some y)
    {y' : RawAllocation F} {handles' : Slots RawHandle}
    (ht : ∀ i x, handles'.get i = some x → x.allocation = a ∨ handles.get i = some x)
    (hs : y'.strong = handles'.total (RawHandle.refers a))
    (hp : y'.pins = handles'.total (RawHandle.pins a))
    (hs' : ∀ b, b ≠ a → handles'.total (RawHandle.refers b) = handles.total (RawHandle.refers b))
    (hp' : ∀ b, b ≠ a → handles'.total (RawHandle.pins b) = handles.total (RawHandle.pins b)) :
    Linked (allocations.put a y') handles' where
  target := by
    intro i x hx
    rw [Slots.get_put hy]
    rcases ht i x hx with rfl | hx
    · exact ⟨y', if_pos rfl⟩
    · obtain ⟨z, hz⟩ := h.target i x hx
      by_cases ha : a = x.allocation
      · exact ⟨y', if_pos ha⟩
      · exact ⟨z, by rw [if_neg ha, hz]⟩
  strong := by
    intro b z hz
    rw [Slots.get_put hy] at hz
    split at hz
    next he =>
      cases hz
      rw [← he, hs]
    next he => rw [hs' b (Ne.symm he), h.strong b z hz]
  pins := by
    intro b z hz
    rw [Slots.get_put hy] at hz
    split at hz
    next he =>
      cases hz
      rw [← he, hp]
    next he => rw [hp' b (Ne.symm he), h.pins b z hz]

end

-- Operations

structure Unchanged (p p' : Pool F) : Prop where
  reserved : p'.status.reservedBytes = p.status.reservedBytes
  working : p'.status.workingBytes = p.status.workingBytes
  live : p'.status.liveBytes = p.status.liveBytes
  pinned : p'.status.pinnedBytes = p.status.pinnedBytes
  reservations : p'.reservations = p.reservations
  allocations : p'.allocations = p.allocations
  handles : p'.handles = p.handles

/-- The credit of one reservation has been returned, and nothing else has changed. -/
structure Returned (i : Nat) (p p' : Pool F) : Prop where
  credit : ∃ r, p.reservations.get i = some r ∧ Exchange r .nothing p.status p'.status
  reservations : p'.reservations = p.reservations.free i
  allocations : p'.allocations = p.allocations
  handles : p'.handles = p.handles

/-- Nobody owns the object, or the operation keeps the invariant; a failure changes nothing. -/
def Sound (p : Pool F) (x : Except Fault (Pool.Outcome F)) : Prop :=
  x = .error .absent ∨ ∃ result p', x = .ok (result, p') ∧ Inv p' ∧
    ∀ e, result = .error e → Unchanged p p'

theorem Unchanged.reject : Unchanged p { p with status := p.status.reject } :=
  ⟨rfl, rfl, rfl, rfl, rfl, rfl, rfl⟩

theorem Unchanged.refl (p : Pool F) : Unchanged p p := ⟨rfl, rfl, rfl, rfl, rfl, rfl, rfl⟩

theorem Inv.reject (h : Inv p) : Inv { p with status := p.status.reject } where
  balanced := ⟨h.balanced.reserved, h.balanced.working, h.balanced.live, h.balanced.pinned⟩
  bounded := ⟨h.bounded.part, h.bounded.ordinary, h.bounded.working, h.bounded.limits⟩
  idle := h.idle
  attached := h.attached
  linked := h.linked

theorem sound_done {p' : Pool F} (h : Inv p') : Sound p (.ok (.ok (), p')) :=
  .inr ⟨_, _, rfl, h, by simp⟩

theorem sound_failed (h : Inv p) (e : Failure) : Sound p (.ok (.error e, p)) :=
  .inr ⟨_, _, rfl, h, fun _ _ => .refl p⟩

theorem sound_rejected (h : Inv p) (e : Failure) :
    Sound p (.ok (.error e, { p with status := p.status.reject })) :=
  .inr ⟨_, _, rfl, h.reject, fun _ _ => .reject⟩

theorem sound_owned {o : Option α} {f : α → Except Fault (Pool.Outcome F)}
    (h : ∀ a, o = some a → Sound p (f a)) : Sound p (owned o >>= f) := by
  cases o with
  | none => exact .inl rfl
  | some a => exact h a rfl

theorem Inv.acquire (h : Inv p) (bytes : Nat) (working : Bool) :
    Sound p (p.acquire bytes working) := by
  rcases RawMemoryStatus.acquire_spec h.bounded bytes working with ⟨e, he⟩ | ⟨s', hs, hx, hb⟩
  · rw [Pool.acquire, he, ok_bind]
    exact sound_rejected h e
  · rw [Pool.acquire, hs, ok_bind]
    obtain ⟨hreserved, hworking, hlive, hpinned⟩ := h.balanced
    obtain ⟨hxr, hxw, hxl, hxp, -, -⟩ := hx
    simp only [RawReservation.nothing, RawReservation.workingBytes, RawReservation.liveBytes,
      Bool.false_eq_true, if_false, Nat.add_zero] at hxr hxw hxl
    refine sound_done ⟨⟨?_, ?_, ?_, ?_⟩, hb, ?_, h.attached, h.linked⟩
    · simp only [Slots.total_add]
      omega
    · simp only [Slots.total_add, RawReservation.workingBytes] at hworking ⊢
      omega
    · exact hxl.trans hlive
    · exact hxp.trans hpinned
    · intro i r hr
      rw [Slots.get_add] at hr
      split at hr
      next =>
        cases hr
        rfl
      next => exact h.idle i r hr

theorem Inv.exchange (h : Inv p) (hr : p.reservations.get i = some r) (hl : r'.live = false)
    (hx : Exchange r r' p.status s') (hb : s'.Bounded) :
    Inv { p with status := s', reservations := p.reservations.put i r' } := by
  obtain ⟨hreserved, hworking, hlive, hpinned⟩ := h.balanced
  obtain ⟨hxr, hxw, hxl, hxp, -, -⟩ := hx
  have hlr : r.live = false := h.idle i r hr
  simp only [RawReservation.liveBytes, hl, hlr, Bool.false_eq_true, if_false, Nat.add_zero] at hxl
  have htb := Slots.total_put (f := RawReservation.bytes) (b := r') hr
  have htw := Slots.total_put (f := RawReservation.workingBytes) (b := r') hr
  refine ⟨⟨?_, ?_, ?_, ?_⟩, hb, ?_, h.attached, h.linked⟩
  · dsimp only
    omega
  · dsimp only
    omega
  · exact hxl.trans hlive
  · exact hxp.trans hpinned
  · intro j q hq
    rw [Slots.get_put hr] at hq
    split at hq
    next =>
      cases hq
      exact hl
    next => exact h.idle j q hq

theorem Inv.resize (h : Inv p) (i bytes : Nat) : Sound p (p.resize i bytes) := by
  refine sound_owned fun r hr => ?_
  have hl : r.live = false := h.idle i r hr
  rcases RawMemoryStatus.resize_spec h.bounded (h.covers hr) hl bytes with
    ⟨e, he⟩ | ⟨s', hs, hx, hb⟩
  · rw [he, ok_bind]
    exact sound_rejected h e
  · rw [hs, ok_bind]
    exact sound_done (h.exchange hr hl hx hb)

theorem Inv.shrink (h : Inv p) (i bytes : Nat) : Sound p (p.shrink i bytes) := by
  refine sound_owned fun r hr => ?_
  split
  next => exact h.resize i bytes
  next => exact sound_failed h _

theorem Inv.split (h : Inv p) (i bytes : Nat) : Sound p (p.split i bytes) := by
  refine sound_owned fun r hr => ?_
  split
  next hok =>
    rw [minus_ok hok.2, ok_bind]
    obtain ⟨hreserved, hworking, hlive, hpinned⟩ := h.balanced
    have htb := Slots.total_put (f := RawReservation.bytes)
      (b := { r with bytes := r.bytes - bytes }) hr
    have htw := Slots.total_put (f := RawReservation.workingBytes)
      (b := { r with bytes := r.bytes - bytes }) hr
    refine sound_done ⟨⟨?_, ?_, hlive, hpinned⟩, h.bounded, ?_, h.attached, h.linked⟩
    · simp only [Slots.total_add] at htb ⊢
      omega
    · cases hw : r.working <;>
        simp only [Slots.total_add, RawReservation.workingBytes, hw, Bool.false_eq_true, if_false,
          if_true] at hworking htw ⊢ <;>
        omega
    · intro j q hq
      rw [Slots.get_add] at hq
      split at hq
      next =>
        cases hq
        rfl
      next =>
        rw [Slots.get_put hr] at hq
        split at hq
        next =>
          cases hq
          exact hok.1
        next => exact h.idle j q hq
  next => exact sound_failed h _

theorem Inv.dropReservation (h : Inv p) (hr : p.reservations.get i = some r) :
    ∃ p', p.dropReservation i = .ok p' ∧ Inv p' ∧ Returned i p p' := by
  obtain ⟨s', hs, hx, hb⟩ := RawMemoryStatus.refund_spec h.bounded (h.covers hr)
  have hx' := hx
  obtain ⟨hreserved, hworking, hlive, hpinned⟩ := h.balanced
  obtain ⟨hxr, hxw, hxl, hxp, -, -⟩ := hx
  have hl : r.live = false := h.idle i r hr
  simp only [RawReservation.nothing, RawReservation.liveBytes, hl, Bool.false_eq_true, if_false,
    Nat.add_zero] at hxr hxl
  have hxw : s'.workingBytes + r.workingBytes = p.status.workingBytes := hxw
  have htb := Slots.total_free (f := RawReservation.bytes) hr
  have htw := Slots.total_free (f := RawReservation.workingBytes) hr
  refine ⟨{ p with status := s', reservations := p.reservations.free i }, ?_,
    ⟨⟨?_, ?_, ?_, ?_⟩, hb, ?_, h.attached, h.linked⟩, ⟨⟨r, hr, hx'⟩, rfl, rfl, rfl⟩⟩
  · rw [Pool.dropReservation, hr]
    simp only [owned, Option.elim_some, ok_bind, hs]
  · dsimp only
    omega
  · dsimp only
    omega
  · exact hxl.trans hlive
  · exact hxp.trans hpinned
  · intro j q hq
    rw [Slots.get_free hr] at hq
    split at hq
    next => cases hq
    next => exact h.idle j q hq

theorem Inv.drop (h : Inv p) (i : Nat) : Sound p (p.drop i) := by
  cases hr : p.reservations.get i with
  | none => exact .inl (by simp [Pool.drop, Pool.dropReservation, hr, owned])
  | some r =>
    obtain ⟨p', hp', hi, -⟩ := h.dropReservation hr
    rw [Pool.drop, hp', ok_bind]
    exact sound_done hi

theorem sound_shared {h : Nat} {f : RawHandle → Except Fault (Pool.Outcome F)}
    (hf : ∀ x, p.handles.get h = some x → Sound p (f x)) : Sound p (p.sharedHandle h >>= f) := by
  rw [Pool.sharedHandle, bind_assoc]
  refine sound_owned fun x hx => ?_
  split
  next => exact hf x hx
  next => exact .inl rfl

theorem Inv.touch (hi : Inv p) (hx : p.handles.get h = some x) (strong : Nat) :
    Inv { p with handles := p.handles.put h { x with strong } } :=
  { hi with
    balanced := ⟨hi.balanced.reserved, hi.balanced.working, hi.balanced.live, hi.balanced.pinned⟩
    linked := hi.linked.touch hx rfl rfl }

theorem Inv.clone (hi : Inv p) (h : Nat) : Sound p (p.clone h) :=
  sound_shared fun _ hx => sound_done (hi.touch hx _)

theorem Inv.dropRows (hi : Inv p) (h : Nat) : Sound p (p.dropRows h) :=
  sound_shared fun _ hx => sound_done (hi.touch hx _)

theorem Inv.attach (h : Inv p) (hr : p.reservations.get i = some r) {y : RawAllocation F}
    (hy : y.reservation = { r with live := true }) (hp : y.pins = 0) (hs : y.strong = 1)
    (nextIdentity : Nat) :
    Inv { p with
      status := { p.status with liveBytes := p.status.liveBytes + r.bytes }
      reservations := p.reservations.free i
      allocations := p.allocations.add y
      handles := p.handles.add ⟨p.allocations.length, false, 1⟩
      nextIdentity } := by
  obtain ⟨hreserved, hworking, hlive, hpinned⟩ := h.balanced
  have htb := Slots.total_free (f := RawReservation.bytes) hr
  have htw := Slots.total_free (f := RawReservation.workingBytes) hr
  have hw : y.reservation.workingBytes = r.workingBytes := by rw [hy]; rfl
  have hb : y.reservation.bytes = r.bytes := by rw [hy]
  refine ⟨⟨?_, ?_, ?_, ?_⟩, ⟨h.bounded.part, h.bounded.ordinary, h.bounded.working,
    h.bounded.limits⟩, ?_, ?_, h.linked.build hs hp⟩
  · simp only [Slots.total_add]
    omega
  · simp only [Slots.total_add]
    omega
  · simp only [Slots.total_add]
    omega
  · simpa [RawAllocation.pinnedBytes, hp] using hpinned
  · intro j q hq
    rw [Slots.get_free hr] at hq
    split at hq
    next => cases hq
    next => exact h.idle j q hq
  · intro a x hx
    rw [Slots.get_add] at hx
    split at hx
    next =>
      cases hx
      rw [hy]
    next => exact h.attached a x hx

theorem Inv.live_le (h : Inv p) (hr : p.reservations.get i = some r) :
    p.status.liveBytes + r.bytes ≤ usizeMax := by
  obtain ⟨hreserved, -, hlive, -⟩ := h.balanced
  obtain ⟨hpart, hordinary, hworking, hlimits⟩ := h.bounded
  have hle := Slots.le_total (f := RawReservation.bytes) hr
  omega

theorem Inv.build (h : Inv p) (i : Nat) (allocate : Except Failure (List (StoredRow F))) :
    p.build i allocate = .error .absent ∨ ∃ result p', p.build i allocate = .ok (result, p') ∧
      Inv p' ∧ ∀ e, result = .error e → Returned i p p' := by
  cases hr : p.reservations.get i with
  | none => exact .inl (by simp [Pool.build, hr, owned])
  | some r =>
    rw [Pool.build, hr]
    simp only [owned, Option.elim_some, ok_bind]
    cases p.allocated r allocate with
    | error e =>
      obtain ⟨p', hp', hi, hret⟩ := h.dropReservation hr
      simp only [hp', ok_bind]
      exact .inr ⟨_, _, rfl, hi, fun _ _ => hret⟩
    | ok rows =>
      simp only [plus_ok (h.live_le hr), ok_bind]
      exact .inr ⟨_, _, rfl, h.attach hr rfl rfl rfl _, by simp⟩

theorem Inv.pinned_le (hi : Inv p) (hy : p.allocations.get a = some y) (hp : y.pins = 0) :
    p.status.pinnedBytes + y.reservation.bytes ≤ usizeMax := by
  obtain ⟨hreserved, -, -, hpinned⟩ := hi.balanced
  obtain ⟨hpart, hordinary, hworking, hlimits⟩ := hi.bounded
  have hfree := Slots.total_free (f := RawAllocation.pinnedBytes) hy
  have hfree' := Slots.total_free (f := fun x => x.reservation.bytes) hy
  have hle : (p.allocations.free a).total RawAllocation.pinnedBytes ≤
      (p.allocations.free a).total fun x => x.reservation.bytes := by
    refine Slots.total_mono fun x => ?_
    unfold RawAllocation.pinnedBytes
    split <;> omega
  simp only [RawAllocation.pinnedBytes, hp, if_true] at hfree
  omega

theorem Inv.recount (hi : Inv p) (pinnedBytes : Nat) (hy : p.allocations.get a = some y)
    {y' : RawAllocation F} (hr : y'.reservation = y.reservation)
    (hl : Linked (p.allocations.put a y') handles)
    (hpinned : pinnedBytes + y.pinnedBytes = p.status.pinnedBytes + y'.pinnedBytes) :
    Inv { p with
      status := { p.status with pinnedBytes }
      allocations := p.allocations.put a y'
      handles } := by
  obtain ⟨hreserved, hworking, hlive, hpin⟩ := hi.balanced
  have htb := Slots.total_put (f := fun x => x.reservation.bytes) (b := y') hy
  have htw := Slots.total_put (f := fun x => x.reservation.workingBytes) (b := y') hy
  have htp := Slots.total_put (f := RawAllocation.pinnedBytes) (b := y') hy
  rw [hr] at htb htw
  refine ⟨⟨?_, ?_, ?_, ?_⟩, ⟨hi.bounded.part, hi.bounded.ordinary, hi.bounded.working,
    hi.bounded.limits⟩, hi.idle, ?_, hl⟩
  · dsimp only
    omega
  · dsimp only
    omega
  · dsimp only
    omega
  · dsimp only
    omega
  · intro b x hx
    rw [Slots.get_put hy] at hx
    split at hx
    next =>
      cases hx
      rw [hr]
      exact hi.attached a y hy
    next => exact hi.attached b x hx

theorem Inv.pin (hi : Inv p) (h : Nat) : Sound p (p.pin h) := by
  refine sound_shared fun x hx => sound_owned fun y hy => ?_
  have hlinked : Linked
      (p.allocations.put x.allocation { y with pins := y.pins + 1, strong := y.strong + 1 })
      (p.handles.add ⟨x.allocation, true, 1⟩) := by
    refine hi.linked.update hy ?_ ?_ ?_ ?_ ?_
    · intro i z hz
      rw [Slots.get_add] at hz
      split at hz
      next =>
        cases hz
        exact .inl rfl
      next => exact .inr hz
    · simp [hi.linked.strong _ y hy, RawHandle.refers]
    · simp [hi.linked.pins _ y hy, RawHandle.pins]
    · intro b hb
      simp [RawHandle.refers, Ne.symm hb]
    · intro b hb
      simp [RawHandle.pins, Ne.symm hb]
  by_cases hp : y.pins = 0
  · simp only [onClass, hp, beq_self_eq_true, if_true, plus_ok (hi.pinned_le hy hp), ok_bind]
    refine sound_done (hi.recount _ hy rfl (by simpa [hp] using hlinked) ?_)
    simp [RawAllocation.pinnedBytes, hp]
  · simp only [onClass, beq_eq_false_iff_ne.mpr hp, Bool.false_eq_true, if_false, ok_bind]
    refine sound_done (hi.recount _ hy rfl hlinked ?_)
    simp [RawAllocation.pinnedBytes, hp]

theorem Inv.pins_pos (hi : Inv p) (hx : p.handles.get h = some x) (hp : x.pinned = true)
    (hy : p.allocations.get x.allocation = some y) : 1 ≤ y.pins := by
  have hle := Slots.le_total (f := RawHandle.pins x.allocation) hx
  rw [hi.linked.pins _ y hy]
  simpa [RawHandle.pins, hp] using hle

theorem Inv.le_pinned (hi : Inv p) (hy : p.allocations.get a = some y) (hp : 1 ≤ y.pins) :
    y.reservation.bytes ≤ p.status.pinnedBytes := by
  have hle := Slots.le_total (f := RawAllocation.pinnedBytes) hy
  rw [hi.balanced.pinned]
  simpa [RawAllocation.pinnedBytes, Nat.one_le_iff_ne_zero.mp hp] using hle

theorem Inv.unpin (hi : Inv p) (h : Nat) : Sound p (p.unpin h) := by
  refine sound_owned fun x hx => ?_
  split
  next hok =>
    refine sound_owned fun y hy => ?_
    have hpos := hi.pins_pos hx hok.2 hy
    have hlinked : Linked (p.allocations.put x.allocation { y with pins := y.pins - 1 })
        (p.handles.put h { x with pinned := false }) := by
      refine hi.linked.update hy ?_ ?_ ?_ ?_ ?_
      · intro i z hz
        rw [Slots.get_put hx] at hz
        split at hz
        next =>
          cases hz
          exact .inl rfl
        next => exact .inr hz
      · have ht := Slots.total_put (f := RawHandle.refers x.allocation)
          (b := { x with pinned := false }) hx
        simp only [RawHandle.refers, if_true] at ht
        have := hi.linked.strong _ y hy
        dsimp only
        omega
      · have ht := Slots.total_put (f := RawHandle.pins x.allocation)
          (b := { x with pinned := false }) hx
        have := hi.linked.pins _ y hy
        simp only [RawHandle.pins, hok.2, and_self, if_true, Bool.false_eq_true, and_false,
          if_false] at ht this ⊢
        omega
      · intro b hb
        have ht := Slots.total_put (f := RawHandle.refers b) (b := { x with pinned := false }) hx
        simp only [RawHandle.refers] at ht ⊢
        omega
      · intro b hb
        have ht := Slots.total_put (f := RawHandle.pins b) (b := { x with pinned := false }) hx
        simp only [RawHandle.pins, Ne.symm hb, false_and, if_false] at ht ⊢
        omega
    rw [minus_ok hpos, ok_bind]
    by_cases hlast : y.pins - 1 = 0
    · have hle := hi.le_pinned hy hpos
      simp only [onClass, hlast, beq_self_eq_true, if_true, minus_ok hle, ok_bind]
      refine sound_done (hi.recount _ hy rfl (by simpa [hlast] using hlinked) ?_)
      simp only [RawAllocation.pinnedBytes, Nat.one_le_iff_ne_zero.mp hpos, if_false, if_true]
      omega
    · simp only [onClass, beq_eq_false_iff_ne.mpr hlast, Bool.false_eq_true, if_false, ok_bind]
      refine sound_done (hi.recount _ hy rfl hlinked ?_)
      simp [RawAllocation.pinnedBytes, hlast, Nat.one_le_iff_ne_zero.mp hpos]
  next => exact .inl rfl

theorem Inv.release (hi : Inv p) (h : Nat) : Sound p (p.release h) := by
  refine sound_owned fun x hx => ?_
  split
  next hok =>
    refine sound_owned fun y hy => ?_
    have hstrong := hi.linked.strong _ y hy
    have hone := Slots.le_total (f := RawHandle.refers x.allocation) hx
    have hpos : 1 ≤ y.strong := by simpa [hstrong, RawHandle.refers] using hone
    have hlinked : Linked (p.allocations.put x.allocation { y with strong := y.strong - 1 })
        (p.handles.free h) := by
      refine hi.linked.update hy ?_ ?_ ?_ ?_ ?_
      · intro i z hz
        rw [Slots.get_free hx] at hz
        split at hz
        next => cases hz
        next => exact .inr hz
      · have ht := Slots.total_free (f := RawHandle.refers x.allocation) hx
        simp only [RawHandle.refers, if_true] at ht hstrong ⊢
        omega
      · have ht := Slots.total_free (f := RawHandle.pins x.allocation) hx
        have := hi.linked.pins _ y hy
        simp only [RawHandle.pins, hok.2, Bool.false_eq_true, and_false, if_false] at ht this ⊢
        omega
      · intro b hb
        have ht := Slots.total_free (f := RawHandle.refers b) hx
        simp only [RawHandle.refers, Ne.symm hb, if_false] at ht ⊢
        omega
      · intro b hb
        have ht := Slots.total_free (f := RawHandle.pins b) hx
        simp only [RawHandle.pins, Ne.symm hb, false_and, if_false] at ht ⊢
        omega
    rw [minus_ok hpos, ok_bind]
    exact sound_done (hi.recount p.status.pinnedBytes hy rfl hlinked rfl)
  next => exact .inl rfl

theorem Inv.deallocate (hi : Inv p) (a : Nat) : Sound p (p.deallocate a) := by
  refine sound_owned fun y hy => ?_
  split
  next hzero =>
    obtain ⟨s', hs, hx, hb⟩ := RawMemoryStatus.refund_spec hi.bounded (hi.covers_allocation hy)
    rw [hs, ok_bind]
    obtain ⟨hreserved, hworking, hlive, hpinned⟩ := hi.balanced
    obtain ⟨hxr, hxw, hxl, hxp, -, -⟩ := hx
    have hl : y.reservation.live = true := hi.attached a y hy
    have hxr : s'.reservedBytes + y.reservation.bytes = p.status.reservedBytes := hxr
    have hxw : s'.workingBytes + y.reservation.workingBytes = p.status.workingBytes := hxw
    have hxl : s'.liveBytes + y.reservation.bytes = p.status.liveBytes := by
      simpa [RawReservation.liveBytes, RawReservation.nothing, hl] using hxl
    have htb := Slots.total_free (f := fun x => x.reservation.bytes) hy
    have htw := Slots.total_free (f := fun x => x.reservation.workingBytes) hy
    have htp := Slots.total_free (f := RawAllocation.pinnedBytes) hy
    -- No handle refers to the allocation, so none pins it.
    have hnone : ∀ j x, p.handles.get j = some x → x.allocation ≠ a := by
      intro j x hj he
      have hone := Slots.le_total (f := RawHandle.refers a) hj
      rw [← hi.linked.strong a y hy, hzero] at hone
      simp [RawHandle.refers, he] at hone
    have hpins : y.pins = 0 := by
      rw [hi.linked.pins a y hy]
      exact Slots.total_eq_zero fun j x hj => by simp [RawHandle.pins, hnone j x hj]
    simp only [RawAllocation.pinnedBytes, hpins, if_true, Nat.add_zero] at htp
    refine sound_done ⟨⟨?_, ?_, ?_, ?_⟩, hb, hi.idle, ?_, ⟨?_, ?_, ?_⟩⟩
    · dsimp only
      omega
    · dsimp only
      omega
    · dsimp only
      omega
    · exact (hxp.trans hpinned).trans htp.symm
    · intro b x hx
      rw [Slots.get_free hy] at hx
      split at hx
      next => cases hx
      next => exact hi.attached b x hx
    · intro j x hj
      obtain ⟨z, hz⟩ := hi.linked.target j x hj
      exact ⟨z, by rw [Slots.get_free hy, if_neg (Ne.symm (hnone j x hj)), hz]⟩
    · intro b x hx
      rw [Slots.get_free hy] at hx
      split at hx
      next => cases hx
      next => exact hi.linked.strong b x hx
    · intro b x hx
      rw [Slots.get_free hy] at hx
      split at hx
      next => cases hx
      next => exact hi.linked.pins b x hx
  next => exact .inl rfl

-- Runs

def Op.builds (i : Nat) : Op F → Prop
  | .build j _ => j = i
  | _ => False

/-- Every operation keeps the invariant, and a failed one keeps the credit unless it is a build. -/
theorem Inv.run (h : Inv p) (op : Op F) :
    p.run op = .error .absent ∨ ∃ result p', p.run op = .ok (result, p') ∧ Inv p' ∧
      ∀ e, result = .error e → Unchanged p p' ∨ ∃ i, op.builds i ∧ Returned i p p' := by
  have hsound : ∀ {x}, Sound p x → x = .error .absent ∨ ∃ result p', x = .ok (result, p') ∧
      Inv p' ∧ ∀ e, result = .error e → Unchanged p p' ∨ ∃ i, op.builds i ∧ Returned i p p' := by
    rintro x (hx | ⟨result, p', hx, hi, hf⟩)
    · exact .inl hx
    · exact .inr ⟨result, p', hx, hi, fun e he => .inl (hf e he)⟩
  cases op with
  | acquire bytes working => exact hsound (h.acquire bytes working)
  | resize i bytes => exact hsound (h.resize i bytes)
  | shrink i bytes => exact hsound (h.shrink i bytes)
  | split i bytes => exact hsound (h.split i bytes)
  | build i allocate =>
    rcases h.build i allocate with hx | ⟨result, p', hx, hi, hf⟩
    · exact .inl hx
    · exact .inr ⟨result, p', hx, hi, fun e he => .inr ⟨i, rfl, hf e he⟩⟩
  | clone i => exact hsound (h.clone i)
  | pin i => exact hsound (h.pin i)
  | drop i => exact hsound (h.drop i)
  | dropRows i => exact hsound (h.dropRows i)
  | unpin i => exact hsound (h.unpin i)
  | release i => exact hsound (h.release i)
  | deallocate a => exact hsound (h.deallocate a)

theorem inv_new (h : RawMemoryStatus.new limitBytes workingLimitBytes = .ok s) :
    Inv (Pool.new s : Pool F) := by
  simp only [RawMemoryStatus.new, Result.ensure_bind] at h
  obtain ⟨⟨hl, hw, hsum⟩, h⟩ := h
  cases h
  refine ⟨⟨rfl, rfl, rfl, rfl⟩, ⟨Nat.le_refl 0, Nat.zero_le _, Nat.zero_le _, hsum⟩, ?_, ?_,
    ⟨?_, ?_, ?_⟩⟩ <;> simp [Pool.new]

theorem inv_reachable (h : (machine F).Reachable p) : Inv p := by
  refine h.invariant ?_ ?_
  · rintro _ ⟨limitBytes, workingLimitBytes, s, hs, rfl⟩
    exact inv_new hs
  · rintro p op p' hi ⟨result, hrun⟩
    rcases hi.run op with habsent | ⟨result', q, hq, hinv, -⟩
    · simp [habsent] at hrun
    · rw [hq] at hrun
      cases hrun
      exact hinv

/-- The owners have dropped everything they had, and every drop has run to its end. -/
structure Dropped (p : Pool F) : Prop where
  reservations : p.reservations.Empty
  shared : ∀ h x, p.handles.get h = some x → x.strong = 0
  unpinned : ∀ h, p.run (.unpin h) = .error .absent
  released : ∀ h, p.run (.release h) = .error .absent
  deallocated : ∀ a, p.run (.deallocate a) = .error .absent

theorem Dropped.handles (hd : Dropped p) (hi : Inv p) : p.handles.Empty := by
  intro h
  cases hx : p.handles.get h with
  | none => rfl
  | some x =>
    obtain ⟨y, hy⟩ := hi.linked.target h x hx
    have hz := hd.shared h x hx
    cases hp : x.pinned with
    | true =>
      have hrun := hd.unpinned h
      have hpos := hi.pins_pos hx hp hy
      obtain ⟨b, hb⟩ : ∃ b, onClass (y.pins - 1 == 0) p.status.pinnedBytes
          (minus · y.reservation.bytes) = .ok b := by
        unfold onClass
        split
        next => exact ⟨_, minus_ok (hi.le_pinned hy hpos)⟩
        next => exact ⟨_, rfl⟩
      simp only [Pool.run, Pool.unpin, hx, owned, Option.elim_some, ok_bind, hz, hp, and_self,
        if_true, hy, minus_ok hpos, hb] at hrun
      cases hrun
    | false =>
      have hrun := hd.released h
      have hone := Slots.le_total (f := RawHandle.refers x.allocation) hx
      have hpos : 1 ≤ y.strong := by
        simpa [hi.linked.strong _ y hy, RawHandle.refers] using hone
      simp only [Pool.run, Pool.release, hx, owned, Option.elim_some, ok_bind, hz, hp, and_self,
        if_true, hy, minus_ok hpos] at hrun
      cases hrun

theorem Dropped.allocations (hd : Dropped p) (hi : Inv p) : p.allocations.Empty := by
  intro a
  cases hy : p.allocations.get a with
  | none => rfl
  | some y =>
    have hzero : y.strong = 0 := by
      rw [hi.linked.strong a y hy]
      exact (hd.handles hi).total
    obtain ⟨s', hs, -, -⟩ := RawMemoryStatus.refund_spec hi.bounded (hi.covers_allocation hy)
    have hrun := hd.deallocated a
    simp only [Pool.run, Pool.deallocate, hy, owned, Option.elim_some, ok_bind, hzero, if_true,
      hs] at hrun
    cases hrun

/-- Raw memory credit is conserved in every run, and a failed operation changes nothing but a failed
build. -/
theorem credit_conserved (h : (machine F).Reachable p) :
    Balanced p ∧ Linked p.allocations p.handles ∧
    p.status.reservedBytes ≤ p.status.workingBytes + p.status.limitBytes ∧
    p.status.workingBytes ≤ p.status.workingLimitBytes ∧
    (∀ op, p.run op ≠ .error .arithmetic) ∧
    (∀ op e p', p.run op = .ok (.error e, p') → (∀ i, ¬op.builds i) → Unchanged p p') ∧
    (∀ op e p' i, p.run op = .ok (.error e, p') → op.builds i → Returned i p p') ∧
    (Dropped p → p.status.reservedBytes = 0 ∧ p.status.workingBytes = 0 ∧
      p.status.liveBytes = 0 ∧ p.status.pinnedBytes = 0) := by
  have hi := inv_reachable h
  refine ⟨hi.balanced, hi.linked, hi.bounded.ordinary, hi.bounded.working, ?_, ?_, ?_, ?_⟩
  · intro op hop
    rcases hi.run op with hab | ⟨result, p', hok, -⟩
    · simp [hab] at hop
    · simp [hok] at hop
  · intro op e p' hop hnot
    rcases hi.run op with hab | ⟨result, q, hok, -, hf⟩
    · simp [hab] at hop
    · rw [hok] at hop
      cases hop
      rcases hf e rfl with hu | ⟨i, hb, -⟩
      · exact hu
      · exact absurd hb (hnot i)
  · intro op e p' i hop hb
    cases op with
    | build j allocate =>
      obtain rfl : j = i := hb
      rcases hi.build j allocate with hab | ⟨result, q, hok, -, hf⟩
      · simp [Pool.run, hab] at hop
      · rw [Pool.run, hok] at hop
        cases hop
        exact hf e rfl
    | _ => exact hb.elim
  · intro hd
    obtain ⟨hreserved, hworking, hlive, hpinned⟩ := hi.balanced
    have hr := hd.reservations
    have ha := hd.allocations hi
    rw [hreserved, hworking, hlive, hpinned]
    simp only [hr.total, ha.total, Nat.add_zero, and_self]

def refused : Except Failure (List (StoredRow Unit)) := .error (.message "decode")

/-- A failed build gives up its reservation, so it does not leave the totals as they were. -/
theorem failed_build_refunds :
    ∃ p p' : Pool Unit, (machine Unit).Reachable p ∧
      p.run (.build 0 refused) = .ok (.error (.message "decode"), p') ∧
      p.status.reservedBytes = 256 ∧ p'.status.reservedBytes = 0 ∧
      p.reservations.get 0 = some ⟨256, false, false⟩ ∧ p'.reservations.get 0 = none := by
  refine ⟨_, _, .step (.init ⟨1000, 1, _, rfl, rfl⟩) (a := .acquire 256 false) ⟨_, rfl⟩, rfl, ?_⟩
  decide

set_option maxRecDepth 4000 in
theorem credit_conserved_pinned :
    ∃ p : Pool Unit, (machine Unit).Reachable p ∧ p.status.liveBytes = 256 ∧
      p.status.pinnedBytes = 256 ∧ Balanced p ∧ ∀ op, p.run op ≠ .error .arithmetic := by
  have hp := (((Machine.Reachable.init (M := machine Unit) ⟨1000, 1, _, rfl, rfl⟩).step
    (a := .acquire 256 false) ⟨_, rfl⟩).step (a := .build 0 (.ok [])) ⟨_, rfl⟩).step
    (a := .pin 0) ⟨_, rfl⟩
  obtain ⟨hb, -, -, -, hrun, -⟩ := credit_conserved hp
  exact ⟨_, hp, by decide, by decide, hb, hrun⟩

end Varve.Memory
