import Varve.Lib.Disk

/-!
# File sizes

The visible files of a directory with their lengths.
-/

namespace Disk

section
variable {κ : Type u} {β : Type v}

def sizes (d : Dir κ β) : List (κ × Nat) := (view d).map fun file => (file.1, file.2.length)

theorem sizes_cons (entry : κ × File β) (d : Dir κ β) : sizes (entry :: d) =
    (if entry.2.linked then [(entry.1, entry.2.content.length)] else []) ++ sizes d := by
  unfold sizes view
  cases h : entry.2.linked <;> simp [h]

variable [DecidableEq κ] {d : Dir κ β} {key : κ}

def resize (key : κ) (f : Nat → Nat) (s : List (κ × Nat)) : List (κ × Nat) :=
  s.map fun file => if file.1 = key then (file.1, f file.2) else file

def applySizes (s : List (κ × Nat)) : Op κ β → List (κ × Nat)
  | .create key => s ++ [(key, 0)]
  | .append key data => resize key (· + data.length) s
  | .rewrite key data => resize key (max data.length) s
  | .truncate key length => resize key (min length) s
  | .sync _ => s
  | .unlink key => s.filter fun file => decide (file.1 ≠ key)
  | .syncDir => s

theorem sizes_modify {g : File β → File β} {f : Nat → Nat} (hl : ∀ x, (g x).linked = x.linked)
    (hc : ∀ x, (g x).content.length = f x.content.length) :
    sizes (modify d key g) = resize key f (sizes d) := by
  induction d with
  | nil => rfl
  | cons entry d ih =>
    have hcons : modify (entry :: d) key g =
        (if entry.1 = key then (entry.1, g entry.2) else entry) :: modify d key g := rfl
    rw [hcons, sizes_cons, ih, sizes_cons, resize, resize, List.map_append]
    congr 1
    by_cases hk : entry.1 = key <;> cases hlink : entry.2.linked <;> simp [hk, hl, hc, hlink]

theorem resize_id (s : List (κ × Nat)) : resize key (fun n => n) s = s := by
  simp [resize]

theorem sizes_unlink : sizes (modify d key fun f => { f with linked := false }) =
    (sizes d).filter fun file => decide (file.1 ≠ key) := by
  induction d with
  | nil => rfl
  | cons entry d ih =>
    have hcons : modify (entry :: d) key (fun f => { f with linked := false }) =
        (if entry.1 = key then (entry.1, { entry.2 with linked := false }) else entry) ::
          modify d key fun f => { f with linked := false } := rfl
    rw [hcons, sizes_cons, ih, sizes_cons, List.filter_append]
    congr 1
    by_cases hk : entry.1 = key <;> cases hlink : entry.2.linked <;> simp [hk, hlink]

theorem sizes_syncDir : sizes (apply d .syncDir) = sizes d := by
  induction d with
  | nil => rfl
  | cons entry d ih =>
    cases hlink : entry.2.linked
    · have hcons : apply (entry :: d) .syncDir = apply d .syncDir := by simp [apply, hlink]
      rw [hcons, ih, sizes_cons, hlink]
      rfl
    · have hcons : apply (entry :: d) .syncDir =
          (entry.1, { entry.2 with durable := true }) :: apply d .syncDir := by simp [apply, hlink]
      rw [hcons, sizes_cons, ih, sizes_cons]

theorem sizes_apply (d : Dir κ β) (op : Op κ β) : sizes (apply d op) = applySizes (sizes d) op := by
  cases op with
  | create key => simp [apply, applySizes, sizes, view, File.fresh]
  | append key data =>
    show sizes (modify d key fun f => f.append data) = resize key (· + data.length) (sizes d)
    refine sizes_modify (fun _ => rfl) fun x => ?_
    simp [File.append, File.replace]
  | rewrite key data =>
    show sizes (modify d key fun f => f.rewrite data) = resize key (max data.length) (sizes d)
    refine sizes_modify (fun _ => rfl) fun x => ?_
    simp only [File.rewrite, File.replace, List.length_append, List.length_take, List.length_drop]
    omega
  | truncate key length =>
    show sizes (modify d key fun f => f.truncate length) = resize key (min length) (sizes d)
    refine sizes_modify (fun _ => rfl) fun x => ?_
    simp [File.truncate, File.replace]
  | sync key =>
    have hsync : sizes (modify d key File.sync) = resize key (fun n => n) (sizes d) :=
      sizes_modify (fun _ => rfl) fun _ => rfl
    exact hsync.trans (resize_id _)
  | unlink key => exact sizes_unlink
  | syncDir => exact sizes_syncDir

theorem sizes_run (d : Dir κ β) (ops : List (Op κ β)) :
    sizes (run d ops) = ops.foldl applySizes (sizes d) := by
  induction ops generalizing d with
  | nil => rfl
  | cons op ops ih =>
    show sizes (run (apply d op) ops) = _
    rw [ih, sizes_apply]
    rfl

theorem perm_applySizes {s t : List (κ × Nat)} (h : s.Perm t) (op : Op κ β) :
    (applySizes s op).Perm (applySizes t op) := by
  cases op with
  | create key => exact h.append_right _
  | append key data => exact h.map _
  | rewrite key data => exact h.map _
  | truncate key length => exact h.map _
  | sync key => exact h
  | unlink key => exact h.filter _
  | syncDir => exact h

theorem perm_run {s : List (κ × Nat)} (h : (sizes d).Perm s) (ops : List (Op κ β)) :
    (sizes (run d ops)).Perm (ops.foldl applySizes s) := by
  rw [sizes_run]
  generalize sizes d = t at h
  induction ops generalizing s t with
  | nil => exact h
  | cons op ops ih => exact ih _ (perm_applySizes h op)

theorem resize_concat {s : List (κ × Nat)} (h : ∀ file ∈ s, file.1 ≠ key) (f : Nat → Nat)
    (n : Nat) :
    resize key f (s ++ [(key, n)]) = s ++ [(key, f n)] := by
  have hs : resize key f s = s := by
    refine (List.map_congr_left fun file hf => ?_).trans (List.map_id s)
    rw [if_neg (h file hf)]
    rfl
  rw [resize, List.map_append, ← resize, hs]
  simp

theorem foldl_unlink (keys : List κ) (s : List (κ × Nat)) :
    (keys.map (Op.unlink (β := β))).foldl applySizes s =
      s.filter fun file => decide (file.1 ∉ keys) := by
  induction keys generalizing s with
  | nil => simp
  | cons key keys ih =>
    rw [List.map_cons, List.foldl_cons, ih, applySizes, List.filter_filter]
    refine List.filter_congr fun file _ => ?_
    simp only [List.mem_cons, not_or, ne_eq, Bool.decide_and]
    exact Bool.and_comm _ _

theorem foldl_sync (keys : List κ) (s : List (κ × Nat)) :
    (keys.map (Op.sync (β := β))).foldl applySizes s = s := by
  induction keys with
  | nil => rfl
  | cons key keys ih => exact ih

end

end Disk
