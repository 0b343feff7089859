import Varve.Lib.Run
import Varve.Dependency.Batch

/-!
# Durability of a dependency batch

What a batch has staged survives a power loss, from any file system and with failures anywhere.
-/

namespace Varve.Dependency

open Effect (Spec get check)
open Inodes (Node FileSystem WellFormed Grows Unnamed Adds)

variable {faults : Faults} {w w₀ : World} {d i : Nat} {parent : List Text} {target temp : Text}
  {bytes : Bytes}

-- What every step keeps

/-- The file system has grown since `w₀` and is still well formed; the poison is as it was. -/
structure Kept (w₀ w : World) : Prop where
  grows : Grows w₀.fs w.fs
  wellFormed : WellFormed w.fs
  failed : w.batch.failed = w₀.batch.failed

theorem Kept.refl (h : WellFormed w.fs) : Kept w w := ⟨.refl _, h, rfl⟩

theorem attempt_bind {R : World → Prop} {Q : α → World → Prop} {f : Unit → Io α} (hR : R w)
    (h : Spec (f ()) w R Q) : Spec (attempt faults step >>= f) w R Q :=
  Spec.check_bind hR fun _ => h

/-- A directory in use, without an entry for the temporary. -/
structure Home (w : World) (d : Nat) (temp : Text) : Prop where
  lt : d < w.fs.next
  isDir : (w.fs.node d).isDir = true
  unnamed : Unnamed w.fs temp

theorem newDir_entries (name : Text) : newDir.entries name = none := rfl

theorem newFile_entries (content synced : Bytes) (name : Text) :
    (Node.file content synced : Node Text UInt8).entries name = none := rfl

theorem createDirAll_spec (hk : Kept w₀ w) (hd : Home w d temp) (hp : temp ∉ path) :
    Spec (createDirAll faults depth d path) w (Kept w₀) fun i w' =>
      Grows w.fs w'.fs ∧ w'.batch = w.batch ∧ w'.fs.lookup d path = some i ∧ Home w' i temp := by
  induction path generalizing w d depth with
  | nil => exact Spec.pure hk ⟨.refl _, rfl, rfl, hd⟩
  | cons name path ih =>
    obtain ⟨hne, hp⟩ := not_or.mp (List.mem_cons.not.mp hp)
    rw [createDirAll]
    refine Spec.get_bind ?_
    cases he : w.fs.entry d name with
    | some j =>
      refine Spec.check_bind hk fun hdir => ?_
      have hj := hk.wellFormed.closed d name j he
      refine (ih hk ⟨hj, hdir, hd.unnamed⟩ hp).mono ?_
      rintro i w' ⟨hg, hb, hl, hhome⟩
      exact ⟨hg, hb, Inodes.lookup_cons.mpr ⟨j, (hg.node d hd.lt).entries he, hl⟩, hhome⟩
    | none =>
      have hadds : Adds w.fs (w.fs.create d name newDir) d name newDir :=
        Inodes.adds_create hd.lt hd.isDir
      have hgrows := hadds.grows he
      have hwell := hadds.wellFormed hd.lt newDir_entries hk.wellFormed
      refine attempt_bind hk (Spec.modify_bind ?_)
      have hk' : Kept w₀ { w with fs := w.fs.create d name newDir } :=
        ⟨hk.grows.trans hgrows, hwell, hk.failed⟩
      have hhome : Home { w with fs := w.fs.create d name newDir } w.fs.next temp := by
        refine ⟨?_, ?_, ?_⟩
        · show w.fs.next < (w.fs.create d name newDir).next
          rw [hadds.next]
          exact Nat.lt_succ_self _
        · show ((w.fs.create d name newDir).node w.fs.next).isDir = true
          rw [hadds.fresh]
          rfl
        · exact hadds.unnamed hd.lt newDir_entries hk.wellFormed hd.unnamed hne
      refine (ih hk' hhome hp).mono ?_
      rintro i w' ⟨hg, hb, hl, hhome⟩
      refine ⟨hgrows.trans hg, hb, Inodes.lookup_cons.mpr ⟨w.fs.next, ?_, hl⟩, hhome⟩
      refine (hg.node d ?_).entries ?_
      · show d < (w.fs.create d name newDir).next
        rw [hadds.next]
        exact Nat.lt_succ_of_lt hd.lt
      · have hentry := hadds.entry hd.lt newDir_entries hk.wellFormed d name
        rw [if_pos ⟨rfl, rfl⟩] at hentry
        exact hentry

theorem trackDirectories_spec (hk : Kept w₀ w) :
    Spec (trackDirectories faults directories) w (Kept w₀) fun _ w' =>
      w'.fs = w.fs ∧ w'.batch.failed = w.batch.failed ∧
        (∀ x ∈ w.batch.directories, x ∈ w'.batch.directories) ∧
        ∀ x ∈ directories, x ∈ w'.batch.directories := by
  induction directories generalizing w with
  | nil => exact Spec.pure hk ⟨rfl, rfl, fun _ h => h, by simp⟩
  | cons directory rest ih =>
    rw [trackDirectories]
    refine attempt_bind hk (Spec.get_bind (Spec.check_bind hk fun _ => Spec.modify_bind ?_))
    have hk' : Kept w₀ { w with
        batch := { w.batch with directories := w.batch.directories.insert directory } } :=
      ⟨hk.grows, hk.wellFormed, hk.failed⟩
    refine (ih hk').mono ?_
    rintro ⟨⟩ w' ⟨hfs, hfailed, hold, hnew⟩
    refine ⟨hfs, hfailed, fun x hx => hold x (List.mem_insert_of_mem hx), ?_⟩
    exact List.forall_mem_cons.mpr ⟨hold _ List.mem_insert_self, hnew⟩

theorem reuse_spec (hk : Kept w₀ w) :
    Spec (reuse faults verify i limit) w (Kept w₀) fun _ w' =>
      ∃ content synced, w.fs.node i = .file content synced ∧ verify content = .ok () ∧
        w' = { w with fs := w.fs.sync i } := by
  unfold reuse
  refine Spec.get_bind ?_
  cases hnode : w.fs.node i with
  | dir entries synced =>
    refine Spec.lift hk fun a h => ?_
    cases h
  | file content synced =>
    refine attempt_bind hk (Spec.check_bind hk fun _ => Spec.lift_bind hk fun _ hverify => ?_)
    refine attempt_bind hk (attempt_bind hk (Spec.modify ⟨?_, hk.wellFormed.sync i, hk.failed⟩ ?_))
    · exact hk.grows.trans (Inodes.grows_sync _ _)
    · exact ⟨content, synced, rfl, hverify, rfl⟩

-- New objects

/-- The files have grown, and have if the temporary is removed as well. -/
structure Scratch (w₀ : World) (d : Nat) (temp : Text) (w : World) : Prop where
  kept : Kept w₀ w
  removed : Kept w₀ { w with fs := w.fs.unlink d temp }

theorem Kept.scratch (hk : Kept w₀ w) (hfree : w.fs.entry d temp = none) : Scratch w₀ d temp w := by
  refine ⟨hk, ?_⟩
  rw [Inodes.unlink_free hfree]
  exact hk

/-- The temporary was added to `w` under some name. -/
structure Pending (w : World) (d : Nat) (name : Text) (content synced : Bytes) (w' : World) :
    Prop where
  adds : Adds w.fs w'.fs d name (.file content synced)
  batch : w'.batch = w.batch

theorem Pending.kept (h : Pending w d name content synced w') (hk : Kept w₀ w)
    (hd : d < w.fs.next) (hfree : w.fs.entry d name = none) : Kept w₀ w' :=
  ⟨hk.grows.trans (h.adds.grows hfree),
    h.adds.wellFormed hd (newFile_entries content synced) hk.wellFormed, by rw [h.batch, hk.failed]⟩

theorem Pending.scratch (h : Pending w d temp content synced w') (hk : Kept w₀ w)
    (hd : Home w d temp) : Scratch w₀ d temp w' := by
  have hfree := hd.unnamed d
  obtain ⟨hgrows, hwell⟩ := h.adds.unlink (newFile_entries content synced) hk.wellFormed hd.lt hfree
  refine ⟨h.kept hk hd.lt hfree, hk.grows.trans hgrows, hwell, ?_⟩
  show w'.batch.failed = _
  rw [h.batch, hk.failed]

theorem Pending.write (h : Pending w d temp content synced w') (hd : d < w.fs.next)
    (data : Bytes) :
    Pending w d temp (content ++ data) synced
      { w' with fs := w'.fs.write w.fs.next data } := by
  refine ⟨?_, h.batch⟩
  have hwrite : w'.fs.write w.fs.next data =
      w'.fs.set w.fs.next (.file (content ++ data) synced) := by
    rw [FileSystem.write, h.adds.fresh]
  rw [hwrite]
  exact h.adds.set hd _

theorem Pending.sync (h : Pending w d temp content synced w') (hd : d < w.fs.next) :
    Pending w d temp content content { w' with fs := w'.fs.sync w.fs.next } := by
  refine ⟨?_, h.batch⟩
  have hsync : w'.fs.sync w.fs.next = w'.fs.set w.fs.next (.file content content) := by
    rw [FileSystem.sync, h.adds.fresh]
    rfl
  rw [hsync]
  exact h.adds.set hd _

theorem createNew_spec (hk : Kept w₀ w) (hd : Home w d temp) :
    Spec (createNew faults d temp) w (Scratch w₀ d temp) fun i w' =>
      i = w.fs.next ∧ Pending w d temp [] [] w' := by
  have hs : Scratch w₀ d temp w := hk.scratch (hd.unnamed d)
  have hp : Pending w d temp [] [] { w with fs := w.fs.create d temp newFile } :=
    ⟨Inodes.adds_create hd.lt hd.isDir, rfl⟩
  unfold createNew
  refine attempt_bind hs (Spec.get_bind (Spec.check_bind hs fun _ => Spec.modify_bind ?_))
  exact Spec.pure (hp.scratch hk hd) ⟨rfl, hp⟩

theorem writeAll_spec (hk : Kept w₀ w) (hd : Home w d temp) (hp : Pending w d temp [] [] w') :
    Spec (writeAll faults w.fs.next bytes) w' (Scratch w₀ d temp) fun _ w'' =>
      Pending w d temp bytes [] w'' := by
  have hw (data : Bytes) : Pending w d temp data [] { w' with fs := w'.fs.write w.fs.next data } :=
    hp.write hd.lt data
  unfold writeAll
  refine Spec.modify_bind (Spec.check ((hw _).scratch hk hd) fun hok => ?_)
  have hp' := hw (if faults.fails .write then bytes.take faults.written else bytes)
  rw [hok, if_neg (by simp)] at hp'
  simp only [hok, Bool.false_eq_true, if_false]
  exact hp'

theorem writeTemp_spec (hk : Kept w₀ w) (hd : Home w d temp) (hfree : w.fs.entry d target = none)
    (hne : temp ≠ target) :
    Spec (writeTemp faults d temp target bytes) w (Scratch w₀ d temp) fun _ w' =>
      Pending w d target bytes bytes w' := by
  unfold writeTemp
  refine Spec.bind (createNew_spec hk hd) ?_
  rintro i w₁ hs₁ ⟨rfl, hp₁⟩
  refine attempt_bind hs₁ (Spec.bind (writeAll_spec hk hd hp₁) ?_)
  rintro ⟨⟩ w₂ hs₂ hp₂
  have hp₃ := hp₂.sync hd.lt
  have hs₃ := hp₃.scratch hk hd
  have hp₄ : Pending w d target bytes bytes
      { w₂ with fs := (w₂.fs.sync w.fs.next).rename d temp target } :=
    ⟨hp₃.adds.rename hd.lt (hd.unnamed d), hp₃.batch⟩
  refine attempt_bind hs₂ (attempt_bind hs₂ (Spec.modify_bind ?_))
  refine attempt_bind hs₃ (attempt_bind hs₃ (Spec.modify ?_ hp₄))
  have hgone : Unnamed ((w₂.fs.sync w.fs.next).rename d temp target) temp :=
    hp₄.adds.unnamed hd.lt (newFile_entries bytes bytes) hk.wellFormed hd.unnamed hne
  exact (hp₄.kept hk hd.lt hfree).scratch (hgone d)

theorem removing_spec {m : Io Unit} {Q : Unit → World → Prop}
    (h : Spec m w (Scratch w₀ d temp) Q) : Spec (removing faults d temp m) w (Kept w₀) Q := by
  obtain ⟨halways, hsuccess⟩ := h
  cases hm : m w with
  | mk result w' =>
    rw [hm] at halways
    cases result with
    | ok a =>
      have hrun : removing faults d temp m w = (.ok a, w') := by rw [removing, hm]
      refine ⟨hrun ▸ halways.kept, fun b t hb => ?_⟩
      rw [hrun] at hb
      cases hb
      exact hsuccess a w' hm
    | error e =>
      have hrun : removing faults d temp m w = (.error e, if faults.fails .removeFile then w'
          else { w' with fs := w'.fs.unlink d temp }) := by rw [removing, hm]
      refine ⟨?_, fun b t hb => ?_⟩
      · rw [hrun]
        dsimp only
        split
        · exact halways.kept
        · exact halways.removed
      · rw [hrun] at hb
        cases hb

theorem publish_spec (hk : Kept w₀ w) (hd : Home w d temp) (hfree : w.fs.entry d target = none)
    (hne : temp ≠ target) :
    Spec (publish faults admission d temp target bytes) w (Kept w₀) fun _ w' =>
      Pending w d target bytes bytes w' := by
  unfold publish
  refine Spec.lift_bind hk fun _ _ => attempt_bind hk ?_
  exact removing_spec (writeTemp_spec hk hd hfree hne)

-- Staging

/-- An object below a directory whose bytes are synced. -/
structure Staged (c : Call) (created : Bool) (w w' : World) (d : Nat)
    (path : List Text) : Prop where
  grows : Grows w.fs w'.fs
  unnamed : Unnamed w'.fs c.temp
  object : ∃ i content, w'.fs.lookup d path = some i ∧ w'.fs.node i = .file content content ∧
    (created = true → content = c.bytes) ∧ (created = false → c.verify content = .ok ())

theorem provide_spec {c : Call} (hk : Kept w₀ w) (hd : Home w d c.temp) (hne : c.temp ≠ target) :
    Spec (c.provide d target) w (Kept w₀) fun created w' =>
      Staged c created w w' d [target] ∧ w'.batch = w.batch := by
  unfold Call.provide
  refine attempt_bind hk (Spec.get_bind ?_)
  cases he : w.fs.entry d target with
  | some i =>
    refine Spec.bind (reuse_spec hk) ?_
    rintro ⟨⟩ w' hk' ⟨content, synced, hnode, hverify, rfl⟩
    refine Spec.pure hk' ⟨⟨Inodes.grows_sync _ _, hd.unnamed.sync i, i, content, ?_, ?_,
      ?_, ?_⟩, rfl⟩
    · show (w.fs.sync i).lookup d [target] = some i
      rw [Inodes.lookup_sync]
      exact Inodes.lookup_cons.mpr ⟨i, he, rfl⟩
    · show (w.fs.sync i).node i = _
      rw [Inodes.node_sync, hnode]
      rfl
    · intro h
      cases h
    · exact fun _ => hverify
  | none =>
    refine Spec.bind (publish_spec hk hd he hne) ?_
    rintro ⟨⟩ w' hk' hp
    have hentries := newFile_entries c.bytes c.bytes
    refine Spec.pure hk' ⟨⟨hp.adds.grows he, ?_, w.fs.next, c.bytes, ?_, hp.adds.fresh, ?_, ?_⟩,
      hp.batch⟩
    · exact hp.adds.unnamed hd.lt hentries hk.wellFormed hd.unnamed hne
    · refine Inodes.lookup_cons.mpr ⟨w.fs.next, ?_, rfl⟩
      rw [hp.adds.entry hd.lt hentries hk.wellFormed, if_pos ⟨rfl, rfl⟩]
    · exact fun _ => rfl
    · intro h
      cases h

theorem mem_ancestors : x ∈ ancestors directory ↔ x <+: directory := by
  rw [ancestors, List.mem_reverse, List.mem_inits]

theorem stageAt_spec {c : Call} (hw : WellFormed w.fs) (hd : Home w anchor c.temp)
    (hp : c.temp ∉ parent) (hne : c.temp ≠ target) :
    Spec (c.stageAt parent target) w (Kept w) fun created w' =>
      Staged c created w w' anchor (parent ++ [target]) ∧
        (∀ x ∈ w.batch.directories, x ∈ w'.batch.directories) ∧
        ∀ x, x <+: parent → x ∈ w'.batch.directories := by
  unfold Call.stageAt
  refine Spec.bind (createDirAll_spec (.refl hw) hd hp) ?_
  rintro d w₁ hk₁ ⟨hg₁, hb₁, hl₁, hhome⟩
  refine Spec.bind (trackDirectories_spec hk₁) ?_
  rintro ⟨⟩ w₂ hk₂ ⟨hfs, -, hold, hnew⟩
  have hhome₂ : Home w₂ d c.temp := ⟨hfs ▸ hhome.lt, hfs ▸ hhome.isDir, hfs ▸ hhome.unnamed⟩
  refine (provide_spec hk₂ hhome₂ hne).mono ?_
  rintro created w₃ ⟨⟨hg₃, hu₃, i, content, hl₃, hnode, hcreated, hverified⟩, hb₃⟩
  have hl₂ : w₂.fs.lookup anchor parent = some d := hfs ▸ hl₁
  have hl := (hg₃.lookup hk₂.wellFormed (Nat.lt_of_lt_of_le hd.lt (hfs ▸ hg₁.next)) hl₂).2
  refine ⟨⟨(hfs ▸ hg₁ : Grows w.fs w₂.fs).trans hg₃, hu₃, i, content, ?_, hnode, hcreated,
    hverified⟩, fun x hx => ?_, fun x hx => ?_⟩
  · exact Inodes.lookup_append.mpr ⟨d, hl, hl₃⟩
  · rw [hb₃]
    exact hold x (hb₁ ▸ hx)
  · rw [hb₃]
    exact hnew x (mem_ancestors.mpr hx)

namespace Call

def names (c : Call) : List Text := ((c.path.bind place).map fun p => p.1 ++ [p.2]).getD []

/-- The name drawn for the temporary is used nowhere, nor in the path. -/
structure Fresh (c : Call) (fs : FileSystem Text UInt8) : Prop where
  unnamed : Unnamed fs c.temp
  path : c.temp ∉ c.names

end Call

def poisoned (w : World) (failed : Bool) : World := { w with batch := { w.batch with failed } }

theorem refused (h : w.batch.failed = true) :
    (check (w.batch.failed = false) "dependency batch already failed" : Io Unit) w =
      (.error "dependency batch already failed", w) :=
  Effect.check_of_not (by simp [h])

/-- A stage fails with the batch poisoned, or it is the staging of its path and the poison is
taken back. -/
theorem stage_cases (c : Call) (w : World) :
    (∃ e w', c.stage w = (.error e, w') ∧ w'.fs = w.fs ∧ w'.batch.failed = true) ∨
      ∃ parent target, c.names = parent ++ [target] ∧
        ((∃ e w', c.stageAt parent target (poisoned w true) = (.error e, w') ∧
          c.stage w = (.error e, w')) ∨
        ∃ created w', c.stageAt parent target (poisoned w true) = (.ok created, w') ∧
          c.stage w = (.ok created, poisoned w' false)) := by
  have hget : (get : Io World) w = (.ok w, w) := rfl
  rw [Call.stage, Effect.bind_of_ok hget]
  cases hf : w.batch.failed with
  | true =>
    have hcheck := refused hf
    rw [hf] at hcheck
    exact .inl ⟨_, w, Effect.bind_of_error hcheck, rfl, hf⟩
  | false =>
    have hcheck : (check (w.batch.failed = false) "dependency batch already failed" : Io Unit) w =
        (.ok (), w) := Effect.check_of hf
    rw [hf] at hcheck
    have hset : setFailed true w = (.ok (), poisoned w true) := rfl
    rw [Effect.bind_of_ok hcheck, Effect.bind_of_ok hset]
    cases hp : c.path with
    | none => exact .inl ⟨_, _, Effect.bind_of_error Effect.context_none, rfl, rfl⟩
    | some relative =>
      rw [Effect.bind_of_ok Effect.context_some]
      cases hplace : place relative with
      | none => exact .inl ⟨_, _, Effect.bind_of_error Effect.context_none, rfl, rfl⟩
      | some split =>
        obtain ⟨parent, target⟩ := split
        rw [Effect.bind_of_ok Effect.context_some]
        refine .inr ⟨parent, target, by simp [Call.names, hp, hplace], ?_⟩
        dsimp only
        cases hstage : c.stageAt parent target (poisoned w true) with
        | mk result w' =>
          cases result with
          | error e => exact .inl ⟨e, w', rfl, Effect.bind_of_error hstage⟩
          | ok created =>
            refine .inr ⟨created, w', rfl, ?_⟩
            rw [Effect.bind_of_ok hstage]
            rfl

theorem prefix_of_names (hn : names = parent ++ [target]) (hx : x <+: names) (hne : x ≠ names) :
    x <+: parent := by
  rw [hn] at hx hne
  rcases List.prefix_concat_iff.mp hx with heq | hx
  · exact absurd heq hne
  · exact hx

theorem stage_spec {c : Call} (hw : WellFormed w.fs) (hlt : anchor < w.fs.next)
    (hdir : (w.fs.node anchor).isDir = true) (hc : c.Fresh w.fs) :
    (∀ e w', c.stage w = (.error e, w') → Grows w.fs w'.fs ∧ WellFormed w'.fs ∧
      w'.batch.failed = true) ∧
    ∀ created w', c.stage w = (.ok created, w') → WellFormed w'.fs ∧
      Staged c created w w' anchor c.names ∧
      (∀ x ∈ w.batch.directories, x ∈ w'.batch.directories) ∧
      ∀ x, x <+: c.names → x ≠ c.names → x ∈ w'.batch.directories := by
  rcases stage_cases c w with ⟨e, w', hstage, hfs, hfailed⟩ | ⟨parent, target, hnames, hcases⟩
  · rw [hstage]
    constructor
    · rintro e' w'' h
      cases h
      exact ⟨hfs ▸ .refl _, hfs ▸ hw, hfailed⟩
    · rintro created w'' h
      cases h
  · have htemp := hc.path
    rw [hnames, List.mem_append, List.mem_singleton, not_or] at htemp
    have hhome : Home (poisoned w true) anchor c.temp := ⟨hlt, hdir, hc.unnamed⟩
    have hw' : WellFormed (poisoned w true).fs := hw
    have hspec := stageAt_spec hw' hhome htemp.1 htemp.2
    rcases hcases with ⟨e, w', hat, hstage⟩ | ⟨created, w', hat, hstage⟩
    · have hkept := hspec.always
      rw [hat] at hkept
      rw [hstage]
      constructor
      · rintro e' w'' h
        cases h
        exact ⟨hkept.grows, hkept.wellFormed, hkept.failed⟩
      · rintro created w'' h
        cases h
    · have hkept := hspec.always
      rw [hat] at hkept
      obtain ⟨hstaged, hold, hnew⟩ := hspec.success created w' hat
      rw [hstage]
      constructor
      · rintro e w'' h
        cases h
      · rintro created' w'' h
        cases h
        refine ⟨hkept.wellFormed, ⟨hstaged.grows, hstaged.unnamed, hnames ▸ hstaged.object⟩, hold,
          fun x hx hne => hnew x (prefix_of_names hnames hx hne)⟩

theorem sync_sync (n : Node Text UInt8) : n.sync.sync = n.sync := by
  cases n <;> rfl

theorem syncDirectories_spec :
    Spec (syncDirectories faults directories) w (fun _ => True) fun _ w' =>
      (∀ k path, w'.fs.lookup k path = w.fs.lookup k path) ∧
      (∀ k, w'.fs.node k = w.fs.node k ∨ w'.fs.node k = (w.fs.node k).sync) ∧
      ∀ x ∈ directories, ∃ i, w.fs.lookup anchor x = some i ∧
        w'.fs.node i = (w.fs.node i).sync := by
  induction directories generalizing w with
  | nil => exact Spec.pure trivial ⟨fun _ _ => rfl, fun _ => .inl rfl, by simp⟩
  | cons directory rest ih =>
    rw [syncDirectories]
    refine attempt_bind trivial (Spec.get_bind (Spec.context_bind trivial fun i hi => ?_))
    refine attempt_bind trivial (Spec.modify_bind (ih.mono ?_))
    rintro ⟨⟩ w' ⟨hlookup, hnode, hrest⟩
    have hsynced (k : Nat) : (w.fs.sync i).node k = w.fs.node k ∨
        (w.fs.sync i).node k = (w.fs.node k).sync := by
      by_cases hk : k = i
      · subst hk
        exact .inr (Inodes.node_sync _ _)
      · exact .inl (Inodes.node_sync_of_ne hk)
    have hagain (k : Nat) : ((w.fs.sync i).node k).sync = (w.fs.node k).sync := by
      rcases hsynced k with h | h
      · rw [h]
      · rw [h, sync_sync]
    refine ⟨fun k path => (hlookup k path).trans Inodes.lookup_sync, fun k => ?_, ?_⟩
    · rcases hnode k with h | h
      · rcases hsynced k with h' | h'
        · exact .inl (h.trans h')
        · exact .inr (h.trans h')
      · exact .inr (h.trans (hagain k))
    · refine List.forall_mem_cons.mpr ⟨⟨i, hi, ?_⟩, fun x hx => ?_⟩
      · have hi' : (w.fs.sync i).node i = (w.fs.node i).sync := Inodes.node_sync _ _
        rcases hnode i with h | h
        · exact h.trans hi'
        · exact h.trans (hagain i)
      · obtain ⟨k, hk, hs⟩ := hrest x hx
        exact ⟨k, Inodes.lookup_sync.symm.trans hk, hs.trans (hagain k)⟩

theorem finish_spec : Spec (finish faults) w (fun _ => True) fun _ w' => w.batch.failed = false ∧
    (∀ k path, w'.fs.lookup k path = w.fs.lookup k path) ∧
    (∀ k, w'.fs.node k = w.fs.node k ∨ w'.fs.node k = (w.fs.node k).sync) ∧
    ∀ x ∈ w.batch.directories, ∃ i, w.fs.lookup anchor x = some i ∧
      w'.fs.node i = (w.fs.node i).sync := by
  unfold finish
  refine Spec.get_bind (Spec.check_bind trivial fun hfailed => syncDirectories_spec.mono ?_)
  rintro ⟨⟩ w' ⟨hlookup, hnode, hsynced⟩
  refine ⟨hfailed, hlookup, hnode, fun x hx => hsynced x ?_⟩
  exact (List.perm_insertionSort _ _).mem_iff.mpr hx

theorem finish_failed (h : w.batch.failed = true) : ∃ e, (finish faults w).1 = .error e := by
  have hget : (get : Io World) w = (.ok w, w) := rfl
  refine ⟨"dependency batch already failed", ?_⟩
  rw [finish, Effect.bind_of_ok hget, Effect.bind_of_error (refused h)]

-- Runs

def contentAt (fs : FileSystem Text UInt8) (path : List Text) : Bytes :=
  match (fs.lookup anchor path).map fs.node with
  | some (.file content _) => content
  | _ => []

/-- A world, what was staged with the bytes that were verified or written, and whether a stage has
failed. -/
structure Staging where
  world : World
  staged : List (List Text × Bytes)
  anyFailed : Bool

def Staging.after (s : Staging) (c : Call) : Staging :=
  match c.stage s.world with
  | (.ok created, w) =>
    ⟨w, s.staged ++ [(c.names, if created then c.bytes else contentAt w.fs c.names)], s.anyFailed⟩
  | (.error _, w) => ⟨w, s.staged, true⟩

/-- Stages of one batch over whatever interrupted and concurrent publishers have left. -/
def staging : Machine Staging Call where
  init s := WellFormed s.world.fs ∧ anchor < s.world.fs.next ∧
    (s.world.fs.node anchor).isDir = true ∧ s.world.batch = .new ∧ s.staged = [] ∧
    s.anyFailed = false
  step s c s' := c.Fresh s.world.fs ∧ s' = s.after c

structure Sound (s : Staging) : Prop where
  wellFormed : WellFormed s.world.fs
  anchor_lt : anchor < s.world.fs.next
  anchor_dir : (s.world.fs.node anchor).isDir = true
  failed : s.anyFailed = true → s.world.batch.failed = true
  objects : ∀ p b, (p, b) ∈ s.staged → ∃ i, s.world.fs.lookup anchor p = some i ∧
    s.world.fs.node i = .file b b
  tracked : s.world.batch.failed = false → ∀ p b, (p, b) ∈ s.staged → ∀ x, x <+: p → x ≠ p →
    x ∈ s.world.batch.directories

theorem object_of_grows {fs fs' : FileSystem Text UInt8} (hg : Grows fs fs') (hw : WellFormed fs)
    (hlt : anchor < fs.next) (h : ∃ i, fs.lookup anchor p = some i ∧ fs.node i = .file b b) :
    ∃ i, fs'.lookup anchor p = some i ∧ fs'.node i = .file b b := by
  obtain ⟨i, hl, hnode⟩ := h
  obtain ⟨hi, hl'⟩ := hg.lookup hw hlt hl
  refine ⟨i, hl', ?_⟩
  have hn := hg.node i hi
  rw [hnode] at hn
  cases hn' : fs'.node i with
  | dir entries synced =>
    rw [hn'] at hn
    cases hn
  | file content synced =>
    rw [hn'] at hn
    cases hn with
    | file hs =>
      rcases hs with rfl | rfl
      · rfl
      · rfl

theorem contentAt_eq {fs : FileSystem Text UInt8} (hl : fs.lookup anchor p = some i)
    (hn : fs.node i = .file content synced) : contentAt fs p = content := by
  rw [contentAt, hl, Option.map_some, hn]

theorem Sound.after {s : Staging} (h : Sound s) {c : Call} (hc : c.Fresh s.world.fs) :
    Sound (s.after c) ∧ Grows s.world.fs (s.after c).world.fs := by
  obtain ⟨herror, hok⟩ := stage_spec h.wellFormed h.anchor_lt h.anchor_dir hc
  cases hstage : c.stage s.world with
  | mk result w =>
    cases result with
    | error e =>
      obtain ⟨hg, hw, hfailed⟩ := herror e w hstage
      have hafter : s.after c = ⟨w, s.staged, true⟩ := by rw [Staging.after, hstage]
      rw [hafter]
      refine ⟨⟨hw, Nat.lt_of_lt_of_le h.anchor_lt hg.next, ?_, fun _ => hfailed, ?_, ?_⟩, hg⟩
      · rw [(hg.node anchor h.anchor_lt).isDir]
        exact h.anchor_dir
      · exact fun p b hp => object_of_grows hg h.wellFormed h.anchor_lt (h.objects p b hp)
      · intro hf
        rw [hfailed] at hf
        cases hf
    | ok created =>
      obtain ⟨hw, ⟨hg, -, i, content, hl, hnode, hcreated, -⟩, hold, hnew⟩ := hok created w hstage
      have hbytes : (if created then c.bytes else contentAt w.fs c.names) = content := by
        cases created with
        | true => exact (hcreated rfl).symm
        | false => exact contentAt_eq hl hnode
      have hafter : s.after c = ⟨w, s.staged ++ [(c.names, content)], s.anyFailed⟩ := by
        rw [Staging.after, hstage, ← hbytes]
      have hmem {p : List Text} {b : Bytes} (hp : (p, b) ∈ s.staged ++ [(c.names, content)]) :
          (p, b) ∈ s.staged ∨ p = c.names ∧ b = content := by
        rcases List.mem_append.mp hp with hp | hp
        · exact .inl hp
        · exact .inr (Prod.mk.inj (List.mem_singleton.mp hp))
      have hclear : s.world.batch.failed = false := by
        cases hf : s.world.batch.failed with
        | false => rfl
        | true =>
          have hget : (get : Io World) s.world = (.ok s.world, s.world) := rfl
          rw [Call.stage, Effect.bind_of_ok hget, Effect.bind_of_error (refused hf)] at hstage
          cases hstage
      rw [hafter]
      refine ⟨⟨hw, Nat.lt_of_lt_of_le h.anchor_lt hg.next, ?_, ?_, ?_, ?_⟩, hg⟩
      · rw [(hg.node anchor h.anchor_lt).isDir]
        exact h.anchor_dir
      · intro hf
        rw [h.failed hf] at hclear
        cases hclear
      · intro p b hp
        rcases hmem hp with hp | ⟨rfl, rfl⟩
        · exact object_of_grows hg h.wellFormed h.anchor_lt (h.objects p b hp)
        · exact ⟨i, hl, hnode⟩
      · intro _ p b hp x hx hne
        rcases hmem hp with hp | ⟨rfl, -⟩
        · exact hold x (h.tracked hclear p b hp x hx hne)
        · exact hnew x hx hne

theorem staging_sound (hr : staging.Reachable s) : Sound s := by
  refine hr.invariant ?_ ?_
  · rintro s ⟨hw, hlt, hdir, hbatch, hstaged, hfailed⟩
    refine ⟨hw, hlt, hdir, ?_, ?_, ?_⟩
    · intro hf
      rw [hfailed] at hf
      cases hf
    · intro p b hp
      rw [hstaged] at hp
      cases hp
    · intro _ p b hp
      rw [hstaged] at hp
      cases hp
  · rintro s c s' h ⟨hc, rfl⟩
    exact (h.after hc).1

theorem Sound.durable {s : Staging} (h : Sound s) (hf : finish faults s.world = (.ok (), w))
    (hp : (p, b) ∈ s.staged) :
    ∃ i, w.fs.powerLoss.lookup anchor p = some i ∧ w.fs.powerLoss.node i = .file b b := by
  obtain ⟨hfailed, hlookup, hnode, hsynced⟩ := finish_spec.success () _ hf
  obtain ⟨i, hl, hobject⟩ := h.objects p b hp
  refine ⟨i, Inodes.lookup_powerLoss ((hlookup _ _).trans hl) ?_, ?_⟩
  · rintro front name rest rfl k hk
    have hfront : front <+: front ++ name :: rest := List.prefix_append _ _
    have hne : front ≠ front ++ name :: rest := by simp
    obtain ⟨k', hk', hs⟩ := hsynced front (h.tracked hfailed _ b hp front hfront hne)
    rw [hlookup, hk'] at hk
    cases hk
    -- The front is a directory, since the path goes on below it.
    obtain ⟨m, hm, hrest⟩ := Inodes.lookup_append.mp hl
    rw [hk'] at hm
    cases hm
    obtain ⟨j, hj, -⟩ := Inodes.lookup_cons.mp hrest
    rw [hs]
    cases hn : s.world.fs.node k with
    | file content synced =>
      rw [FileSystem.entry, hn] at hj
      cases hj
    | dir entries synced => exact ⟨entries, rfl⟩
  · have hkeep : w.fs.node i = .file b b := by
      rcases hnode i with hn | hn
      · rw [hn, hobject]
      · rw [hn, hobject]
        rfl
    show (w.fs.node i).settle = _
    rw [hkeep]
    rfl

/-- What a finished batch has staged survives a power loss, and a failed stage keeps every file that
was there. -/
theorem dependencies_durable (hr : staging.Reachable s) :
    (∀ faults w, finish faults s.world = (.ok (), w) → ∀ p b, (p, b) ∈ s.staged →
      ∃ i, w.fs.powerLoss.lookup anchor p = some i ∧ w.fs.powerLoss.node i = .file b b) ∧
    (s.anyFailed = true → ∀ faults, ∃ e, (finish faults s.world).1 = .error e) ∧
    (∀ c s', staging.step s c s' → ∀ p i content synced,
      s.world.fs.lookup anchor p = some i → s.world.fs.node i = .file content synced →
      s'.world.fs.lookup anchor p = some i ∧ ∃ synced',
        s'.world.fs.node i = .file content synced') ∧
    ∀ (c : Call) created w, c.Fresh s.world.fs → c.stage s.world = (.ok created, w) →
      Unnamed w.fs c.temp ∧ (created = false → c.verify (contentAt w.fs c.names) = .ok ()) := by
  have h := staging_sound hr
  refine ⟨fun faults w hf p b hp => h.durable hf hp, ?_, ?_, ?_⟩
  · exact fun hf faults => finish_failed (h.failed hf)
  · rintro c s' ⟨hc, rfl⟩ p i content synced hl hnode
    have hg := (h.after hc).2
    obtain ⟨hi, hl'⟩ := hg.lookup h.wellFormed h.anchor_lt hl
    refine ⟨hl', ?_⟩
    have hn := hg.node i hi
    rw [hnode] at hn
    cases hn' : (s.after c).world.fs.node i with
    | dir entries synced' =>
      rw [hn'] at hn
      cases hn
    | file content' synced' =>
      rw [hn'] at hn
      cases hn
      exact ⟨_, rfl⟩
  · intro c created w hc hstage
    obtain ⟨-, ⟨-, hunnamed, i, content, hl, hnode, -, hverified⟩, -, -⟩ :=
      (stage_spec h.wellFormed h.anchor_lt h.anchor_dir hc).2 created w hstage
    refine ⟨hunnamed, fun hcreated => ?_⟩
    rw [contentAt_eq hl hnode]
    exact hverified hcreated

def noFaults : Faults := ⟨fun _ => false, 0⟩

def emptyAnchor : Staging := ⟨⟨⟨fun _ => newDir, 1⟩, .new⟩, [], false⟩

def onePage : Call where
  path := some [.normal ['a'], .normal ['b']]
  bytes := [1, 2]
  verify := fun _ => .ok ()
  admission := fun _ => .ok ()
  temp := ['t']
  faults := noFaults

theorem emptyAnchor_init : staging.init emptyAnchor :=
  ⟨⟨fun _ _ _ h => (nomatch h), fun _ _ _ => rfl⟩, Nat.one_pos, rfl, rfl, rfl, rfl⟩

theorem onePage_fresh : onePage.Fresh emptyAnchor.world.fs := ⟨fun _ => rfl, by decide⟩

theorem dependencies_durable_onePage :
    ∃ s w, staging.Reachable s ∧ s.staged = [([['a'], ['b']], [1, 2])] ∧
      finish noFaults s.world = (.ok (), w) ∧ ∃ i,
        w.fs.powerLoss.lookup anchor [['a'], ['b']] = some i ∧
        w.fs.powerLoss.node i = .file [1, 2] [1, 2] := by
  have hr : staging.Reachable (emptyAnchor.after onePage) :=
    (Machine.Reachable.init emptyAnchor_init).step ⟨onePage_fresh, rfl⟩
  have hf : finish noFaults (emptyAnchor.after onePage).world =
      (.ok (), (finish noFaults (emptyAnchor.after onePage).world).2) := rfl
  refine ⟨_, _, hr, rfl, hf, (dependencies_durable hr).1 noFaults _ hf _ _ ?_⟩
  exact List.mem_singleton.mpr rfl

end Varve.Dependency
