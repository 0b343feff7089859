import Varve.Tier.Vacuum

/-!
# Vacuuming deletes nothing that is needed

One invariant of each database, relative to the heads and the objects of the store, carries the
safety of the store.
-/

namespace Varve.Tier.Fleet

variable {w w' : World} {n n' : Node} {O O' : Finset Key} {h : List (Text × Doc)}

def Owns (h : List (Text × Doc)) (owner : Text) : Prop :=
  ∃ x, h.head? = some x ∧ x.2.owner = owner

/-- The newest head is locked for the vacuum of the database, which is bound to it. -/
def Locked (h : List (Text × Doc)) (n : Node) (d : Doc) : Prop :=
  ∃ t, h.head? = some (t, d) ∧ n.token = some t ∧ n.bound = some d ∧ d.owner = n.owner ∧
    d.lock = some ⟨.gc, n.owner⟩

def JobOk (h : List (Text × Doc)) (O : Finset Key) (n : Node) : Job → Prop
  | .idle => True
  | .shipping doc todo => doc.owner = n.owner ∧
      (∀ t d, n.token = some t → n.bound = some d → d.lock = none) ∧
      (h.head?.map Prod.fst = n.token → ∀ k ∈ doc.closure, k ∈ todo ∨ k ∈ O)
  | .swapped t doc after => doc.owner = n.owner ∧ (t, doc) ∈ h ∧
      (after = .lock → doc.lock = some ⟨.gc, n.owner⟩ ∧ h.head? = some (t, doc)) ∧
      (Owns h n.owner → ∀ k ∈ doc.closure, k ∈ O)
  | .shipped => n.token.isSome ∧ (Owns h n.owner → ∀ id ∈ n.remoteIds, .segment id ∈ O)
  | .vacuuming => ∃ d, Locked h n d
  | .deleting keys => ∃ d, Locked h n d ∧
      ∀ k ∈ keys, k ∉ d.closure ∧ ∀ id, k = .segment id → n.Refers id → id ∈ n.files
  | .restoring t d => (t, d) ∈ h ∧ (∃ o, d.lock = some ⟨.restore, o⟩) ∧ ∀ x ∈ h, x.2.owner ≠ n.owner

structure NodeOk (h : List (Text × Doc)) (O : Finset Key) (n : Node) : Prop where
  bound : ∀ t, n.token = some t → ∃ d, n.bound = some d ∧ (t, d) ∈ h ∧ d.owner = n.owner
  unbound : n.token = none → ∀ id, n.Refers id → id ∈ n.files
  owned : Owns h n.owner → ∀ id, n.Refers id → id ∉ n.files → .segment id ∈ O
  job : JobOk h O n n.job

structure Inv (w : World) : Prop where
  fresh : (w.history.map Prod.fst).Nodup
  closure : ∀ x, w.head = some x → ∀ k ∈ x.2.closure, k ∈ w.objects
  node : ∀ i n, w.nodes i = some n → NodeOk w.history w.objects n
  owners : ∀ i j n m, w.nodes i = some n → w.nodes j = some m → n.owner = m.owner → i = j

-- The store changes

theorem NodeOk.grow (hn : NodeOk h O n) (hO : O ⊆ O') : NodeOk h O' n where
  bound := hn.bound
  unbound := hn.unbound
  owned ho id hr hf := hO (hn.owned ho id hr hf)
  job := by
    have hj := hn.job
    cases hjob : n.job with
    | shipping doc todo =>
      rw [hjob] at hj
      exact ⟨hj.1, hj.2.1, fun ht k hk => (hj.2.2 ht k hk).imp id fun h => hO h⟩
    | swapped t doc after =>
      rw [hjob] at hj
      exact ⟨hj.1, hj.2.1, hj.2.2.1, fun ho k hk => hO (hj.2.2.2 ho k hk)⟩
    | shipped =>
      rw [hjob] at hj
      exact ⟨hj.1, fun ho id hid => hO (hj.2 ho id hid)⟩
    | idle | vacuuming | deleting keys | restoring t d => rwa [hjob] at hj

theorem NodeOk.swap (hn : NodeOk h O n) (hf : ∀ x ∈ h, x.1 ≠ t)
    (hl : ∀ x, h.head? = some x → x.2.lock ≠ some ⟨.gc, n.owner⟩)
    (ho : d.owner = n.owner → Owns h n.owner) : NodeOk ((t, d) :: h) O n := by
  have howns : Owns ((t, d) :: h) n.owner → Owns h n.owner := by
    rintro ⟨x, hx, hxo⟩
    cases hx
    exact ho hxo
  refine ⟨fun t' ht => ?_, hn.unbound, fun h => hn.owned (howns h), ?_⟩
  · obtain ⟨d', hb, hm, ho⟩ := hn.bound t' ht
    exact ⟨d', hb, List.mem_cons_of_mem _ hm, ho⟩
  · have hj := hn.job
    cases hjob : n.job with
    | idle => trivial
    | shipping doc todo =>
      rw [hjob] at hj
      refine ⟨hj.1, hj.2.1, fun ht => ?_⟩
      obtain ⟨d', -, hm, -⟩ := hn.bound t ht.symm
      exact absurd rfl (hf _ hm)
    | swapped t' doc after =>
      rw [hjob] at hj
      refine ⟨hj.1, List.mem_cons_of_mem _ hj.2.1, fun ha => ?_, fun h => hj.2.2.2 (howns h)⟩
      exact absurd (hj.2.2.1 ha).1 (hl _ (hj.2.2.1 ha).2)
    | shipped =>
      rw [hjob] at hj
      exact ⟨hj.1, fun h => hj.2 (howns h)⟩
    | vacuuming =>
      rw [hjob] at hj
      obtain ⟨d', t', hh, -, -, -, hlock⟩ := hj
      exact absurd hlock (hl _ hh)
    | deleting keys =>
      rw [hjob] at hj
      obtain ⟨d', ⟨t', hh, -, -, -, hlock⟩, -⟩ := hj
      exact absurd hlock (hl _ hh)
    | restoring t' d' =>
      rw [hjob] at hj
      refine ⟨List.mem_cons_of_mem _ hj.1, hj.2.1, List.forall_mem_cons.mpr ⟨fun hd => ?_, hj.2.2⟩⟩
      obtain ⟨x, hx, hxo⟩ := ho hd
      exact hj.2.2 x (List.mem_of_mem_head? hx) hxo

theorem head_unique (hf : (h.map Prod.fst).Nodup) (h₁ : (t, d) ∈ h) (h₂ : (t, d') ∈ h) :
    d = d' := by
  have := List.inj_on_of_nodup_map hf h₁ h₂ rfl
  exact congrArg Prod.snd this

theorem NodeOk.delete (hn : NodeOk h O n) (hf : (h.map Prod.fst).Nodup) (hh : h.head? = some (t, d))
    (ho : d.owner ≠ n.owner) (hl : d.lock.isSome) : NodeOk h (O.erase key) n := by
  have howns : ¬Owns h n.owner := by
    rintro ⟨x, hx, hxo⟩
    cases hh.symm.trans hx
    exact ho hxo
  refine ⟨hn.bound, hn.unbound, fun h => absurd h howns, ?_⟩
  have hj := hn.job
  cases hjob : n.job with
  | shipping doc todo =>
    rw [hjob] at hj
    refine ⟨hj.1, hj.2.1, fun ht => ?_⟩
    rw [hh] at ht
    obtain ⟨d', hb, hm, -⟩ := hn.bound t ht.symm
    obtain rfl := head_unique hf hm (List.mem_of_mem_head? hh)
    simp [hj.2.1 t d' ht.symm hb] at hl
  | swapped t' doc after =>
    rw [hjob] at hj
    exact ⟨hj.1, hj.2.1, hj.2.2.1, fun h => absurd h howns⟩
  | shipped =>
    rw [hjob] at hj
    exact ⟨hj.1, fun h => absurd h howns⟩
  | idle | vacuuming | deleting keys | restoring t' d' => rwa [hjob] at hj

theorem NodeOk.setJob {j : Job} (hn : NodeOk h O n) (hj : JobOk h O n j) :
    NodeOk h O { n with job := j } :=
  ⟨hn.bound, hn.unbound, hn.owned, by cases j <;> exact hj⟩

theorem local_refers (hl : LocalStep n n') : ∀ id, n'.Refers id →
    id ∈ n'.files ∨ n.Refers id ∧ (id ∈ n.files → id ∈ n'.files) := by
  intro id hr
  cases hl with
  | add s =>
    rcases hr with hr | hr
    · rcases Finset.mem_insert.mp hr with rfl | hr
      · exact .inl (Finset.mem_insert_self _ _)
      · exact .inr ⟨.inl hr, Finset.mem_insert_of_mem⟩
    · exact .inr ⟨.inr hr, Finset.mem_insert_of_mem⟩
  | drop h => exact .inr ⟨hr.imp (fun x => h x) (fun x => x), fun x => x⟩
  | root pages => exact .inr ⟨hr, fun x => x⟩
  | pin h =>
    rcases hr with hr | hr
    · exact .inr ⟨.inl hr, fun x => x⟩
    · rcases Finset.mem_union.mp hr with hr | hr
      · exact .inr ⟨.inr hr, fun x => x⟩
      · exact (h id hr).symm.imp (fun x => x) fun hc => ⟨.inl hc, fun x => x⟩
  | unpin keys => exact .inr ⟨hr.imp (fun x => x) fun x => (Finset.mem_sdiff.mp x).1, fun x => x⟩
  | gc s h =>
    refine .inr ⟨hr, fun hf => Finset.mem_erase.mpr ⟨?_, hf⟩⟩
    rintro rfl
    exact h hr
  | fence => exact .inr ⟨hr, fun x => x⟩

theorem local_same (hl : LocalStep n n') : n'.owner = n.owner ∧ n'.token = n.token ∧
    n'.bound = n.bound ∧ n'.remoteIds = n.remoteIds ∧ n'.job = n.job := by
  cases hl <;> exact ⟨rfl, rfl, rfl, rfl, rfl⟩

theorem NodeOk.local (hn : NodeOk h O n) (hl : LocalStep n n') : NodeOk h O n' := by
  have hr := local_refers hl
  obtain ⟨ho, ht, hb, hi, hj⟩ := local_same hl
  refine ⟨?_, ?_, ?_, ?_⟩
  · rw [ht, hb, ho]
    exact hn.bound
  · rw [ht]
    exact fun h id hid => (hr id hid).elim (fun x => x) fun x => x.2 (hn.unbound h id x.1)
  · rw [ho]
    refine fun h id hid hf => (hr id hid).elim (fun x => absurd x hf) fun x => ?_
    exact hn.owned h id x.1 fun hf' => hf (x.2 hf')
  · rw [hj]
    have hjob := hn.job
    cases hc : n.job with
    | deleting keys =>
      rw [hc] at hjob
      obtain ⟨d, hlock, hk⟩ := hjob
      refine ⟨d, by simpa only [Locked, ho, ht, hb] using hlock, fun k hkm => ⟨(hk k hkm).1, ?_⟩⟩
      exact fun id hid hre => (hr id hre).elim (fun x => x) fun x => x.2 ((hk k hkm).2 id hid x.1)
    | idle => exact True.intro
    | shipping doc todo | swapped t doc after | shipped | vacuuming | restoring t d =>
      rw [hc] at hjob
      simpa only [JobOk, Locked, ho, ht, hb, hi] using hjob

theorem NodeOk.swapSelf {j : Job} (hn : NodeOk h O n) (ho : Owns h n.owner ∨ n.token = none)
    (hj : JobOk ((t, d) :: h) O n j) : NodeOk ((t, d) :: h) O { n with job := j } := by
  refine ⟨fun t' ht => ?_, hn.unbound, fun _ id hr hf => ?_, by cases j <;> exact hj⟩
  · obtain ⟨d', hb, hm, hd⟩ := hn.bound t' ht
    exact ⟨d', hb, List.mem_cons_of_mem _ hm, hd⟩
  · rcases ho with ho | ho
    · exact hn.owned ho id hr hf
    · exact absurd (hn.unbound ho id hr) hf

namespace Inv

theorem update (hi : Inv w) (hf : (h.map Prod.fst).Nodup)
    (hc : ∀ x, h.head? = some x → ∀ k ∈ x.2.closure, k ∈ O)
    (hown : ∀ j m, j ≠ i → w.nodes j = some m → m.owner ≠ o) (ho : n.owner = o)
    (hother : ∀ j m, j ≠ i → w.nodes j = some m → NodeOk h O m) (hself : NodeOk h O n) :
    Inv (World.set ⟨O, h, w.nodes⟩ i n) where
  fresh := hf
  closure := hc
  node j m hm := by
    by_cases hj : j = i
    · subst hj
      simp only [World.set, Function.update_self, Option.some.injEq] at hm
      exact hm ▸ hself
    · simp only [World.set, Function.update_of_ne hj] at hm
      exact hother j m hj hm
  owners j k m m' hm hm' ho' := by
    by_cases hj : j = i <;> by_cases hk : k = i
    · rw [hj, hk]
    · subst hj
      simp only [World.set, Function.update_self, Option.some.injEq] at hm
      simp only [World.set, Function.update_of_ne hk] at hm'
      exact absurd (ho'.symm.trans (hm ▸ ho)) (hown k m' hk hm')
    · subst hk
      simp only [World.set, Function.update_self, Option.some.injEq] at hm'
      simp only [World.set, Function.update_of_ne hj] at hm
      exact absurd (ho'.trans (hm' ▸ ho)) (hown j m hj hm)
    · simp only [World.set, Function.update_of_ne hj] at hm
      simp only [World.set, Function.update_of_ne hk] at hm'
      exact hi.owners j k m m' hm hm' ho'

theorem others (hi : Inv w) (hn : w.nodes i = some n) :
    ∀ j m, j ≠ i → w.nodes j = some m → m.owner ≠ n.owner :=
  fun _ _ hj hm ho => hj (hi.owners _ _ _ _ hm hn ho)

theorem here (hi : Inv w) (hn : w.nodes i = some n) (ho : n'.owner = n.owner)
    (hok : NodeOk w.history w.objects n') : Inv (w.set i n') :=
  hi.update hi.fresh hi.closure (hi.others hn) ho (fun j m _ hm => hi.node j m hm) hok

theorem swap (hi : Inv w) (hown : ∀ j m, j ≠ i → w.nodes j = some m → m.owner ≠ o)
    (ho : n.owner = o) (hf : w.Fresh t) (hc : ∀ k ∈ d.closure, k ∈ w.objects)
    (hl : ∀ x, w.head = some x → x.2.lock = none ∨ x.2.lock = some ⟨.gc, o⟩ ∨
      ∃ o, x.2.lock = some ⟨.restore, o⟩)
    (hd : d.owner = o ∨ ∃ x, w.head = some x ∧ x.2.owner = d.owner)
    (hself : NodeOk ((t, d) :: w.history) w.objects n) : Inv ((w.swap t d).set i n) := by
  have hnew : t ∉ w.history.map Prod.fst := by
    rintro hm
    obtain ⟨x, hx, hxt⟩ := List.mem_map.mp hm
    exact hf x hx hxt
  refine hi.update (List.nodup_cons.mpr ⟨hnew, hi.fresh⟩) ?_ hown ho ?_ hself
  · rintro x hx
    cases hx
    exact hc
  · intro j m hj hm
    refine (hi.node j m hm).swap hf (fun x hx hlock => ?_) fun hdm => ?_
    · rcases hl x hx with h | h | ⟨_, h⟩
      · rw [h] at hlock
        cases hlock
      · rw [h] at hlock
        exact hown j m hj hm (congrArg Lock.owner (Option.some.inj hlock)).symm
      · rw [h] at hlock
        cases hlock
    · rcases hd with hd | ⟨x, hx, hxo⟩
      · exact absurd (hdm.symm.trans hd) (hown j m hj hm)
      · exact ⟨x, hx, hxo.trans hdm⟩

theorem bound_head (hi : Inv w) (hn : w.nodes i = some n) (hx : w.head = some x)
    (ht : n.token = some x.1) : n.bound = some x.2 ∧ x.2.owner = n.owner := by
  obtain ⟨d, hb, hm, ho⟩ := (hi.node i n hn).bound x.1 ht
  obtain rfl := head_unique hi.fresh hm (List.mem_of_mem_head? hx)
  exact ⟨hb, ho⟩

end Inv

-- The steps

theorem inv_ship (hi : Inv w) (hn : w.nodes i = some n)
    (hm : w.head = none ∧ n.token = none ∨ ∃ old, w.Matches n old ∧ old.lock = none)
    (ho : doc.owner = n.owner) (hk : ∀ k ∈ doc.closure, k ∈ keys) :
    Inv (w.set i { n with job := .shipping doc keys }) := by
  refine hi.here hn rfl ((hi.node i n hn).setJob
    ⟨ho, fun t d ht hb => ?_, fun _ k hkm => .inl (hk k hkm)⟩)
  rcases hm with ⟨-, hnone⟩ | ⟨old, ⟨t', hh, ht', -⟩, hl⟩
  · rw [hnone] at ht
    cases ht
  · cases (hi.bound_head hn hh ht').1.symm.trans hb
    exact hl

theorem inv_put (hi : Inv w) (hn : w.nodes i = some n) (hj : n.job = .shipping doc (key :: todo)) :
    Inv ({ w with objects := insert key w.objects }.set i
      { n with job := .shipping doc todo }) := by
  have hsub := Finset.subset_insert key w.objects
  have hok := hi.node i n hn
  have hjob := hok.job
  rw [hj] at hjob
  refine hi.update hi.fresh (fun x hx k hk => hsub (hi.closure x hx k hk)) (hi.others hn) rfl
    (fun j m _ hm => (hi.node j m hm).grow hsub)
    ((hok.grow hsub).setJob ⟨hjob.1, hjob.2.1, fun ht k hk => ?_⟩)
  rcases hjob.2.2 ht k hk with h | h
  · rcases List.mem_cons.mp h with rfl | h
    · exact .inr (Finset.mem_insert_self _ _)
    · exact .inl h
  · exact .inr (hsub h)

theorem inv_publish (hi : Inv w) (hn : w.nodes i = some n) (hj : n.job = .shipping doc [])
    (ht : w.token = n.token) (hf : w.Fresh token) :
    Inv ((w.swap token doc).set i { n with job := .swapped token doc .ship }) := by
  have hok := hi.node i n hn
  have hjob := hok.job
  rw [hj] at hjob
  obtain ⟨hd, hlock, hput⟩ := hjob
  have hobj : ∀ k ∈ doc.closure, k ∈ w.objects := fun k hk =>
    (hput ht k hk).resolve_left List.not_mem_nil
  have hhead : ∀ x, w.head = some x → x.2.lock = none ∧ x.2.owner = n.owner := by
    intro x hx
    have htx : n.token = some x.1 := by rw [← ht, World.token, hx]; rfl
    obtain ⟨hb, ho⟩ := hi.bound_head hn hx htx
    exact ⟨hlock _ _ htx hb, ho⟩
  refine hi.swap (hi.others hn) rfl hf hobj (fun x hx => .inl (hhead x hx).1) (.inl hd)
    (hok.swapSelf ?_ ⟨hd, List.mem_cons_self, nofun, fun _ => hobj⟩)
  cases hx : w.head with
  | none =>
    refine .inr ?_
    rw [← ht, World.token, hx]
    rfl
  | some x => exact .inl ⟨x, hx, (hhead x hx).2⟩

theorem inv_archive {id : Text} (hi : Inv w) (hn : w.nodes i = some n) (hj : n.job = .shipped)
    (hr : id ∈ n.remoteIds) : Inv (w.set i { n with files := n.files.erase id }) := by
  have hok := hi.node i n hn
  have hjob := hok.job
  rw [hj] at hjob
  refine hi.here hn rfl ⟨hok.bound, fun hnone => ?_, fun ho s hs hf => ?_, by rw [hj]; exact hjob⟩
  · have := hjob.1
    rw [show n.token = none from hnone] at this
    cases this
  · by_cases hid : s = id
    · exact hid ▸ hjob.2 ho id hr
    · exact hok.owned ho s hs fun h => hf (Finset.mem_erase.mpr ⟨hid, h⟩)

theorem inv_lock (hi : Inv w) (hn : w.nodes i = some n) (hm : w.Matches n doc)
    (hl : doc.lock = none)
    (hf : w.Fresh token) :
    Inv ((w.swap token { doc with lock := some ⟨.gc, n.owner⟩ }).set i
      { n with job := .swapped token { doc with lock := some ⟨.gc, n.owner⟩ } .lock }) := by
  obtain ⟨t, hh, ht, ho⟩ := hm
  have hc := hi.closure _ hh
  refine hi.swap (hi.others hn) rfl hf hc (fun x hx => ?_) (.inl ho)
    ((hi.node i n hn).swapSelf (.inl ⟨_, hh, ho⟩)
      ⟨ho, List.mem_cons_self, fun _ => ⟨rfl, rfl⟩, fun _ => hc⟩)
  cases hh.symm.trans hx
  exact .inl hl

theorem inv_list (hi : Inv w) (hn : w.nodes i = some n) (hj : n.job = .vacuuming)
    (hb : n.bound = some doc) (hk : ∀ k ∈ keys, k ∉ doc.closure ∧ ¬n.Protects k) :
    Inv (w.set i { n with job := .deleting keys }) := by
  have hok := hi.node i n hn
  have hjob := hok.job
  rw [hj] at hjob
  obtain ⟨d, hlock⟩ := hjob
  have hd : d = doc := by
    obtain ⟨-, -, -, hb', -⟩ := hlock
    exact Option.some.inj (hb'.symm.trans hb)
  subst hd
  refine hi.here hn rfl (hok.setJob ⟨d, hlock, fun k hkm => ⟨(hk k hkm).1, ?_⟩⟩)
  rintro id rfl hr
  exact absurd hr (hk _ hkm).2

theorem inv_delete (hi : Inv w) (hn : w.nodes i = some n) (hj : n.job = .deleting (key :: keys)) :
    Inv ({ w with objects := w.objects.erase key }.set i { n with job := .deleting keys }) := by
  have hok := hi.node i n hn
  have hjob := hok.job
  rw [hj] at hjob
  obtain ⟨d, hlock, hk⟩ := hjob
  obtain ⟨hkey, hkeys⟩ := List.forall_mem_cons.mp hk
  have ⟨t, hh, _, _, ho, hl⟩ := hlock
  refine hi.update hi.fresh (fun x hx k hkm => ?_) (hi.others hn) rfl (fun j m hne hm => ?_)
    ⟨hok.bound, hok.unbound, fun how s hs hf => ?_, d, hlock, hkeys⟩
  · refine Finset.mem_erase.mpr ⟨?_, hi.closure x hx k hkm⟩
    rintro rfl
    cases hh.symm.trans hx
    exact hkey.1 hkm
  · exact (hi.node j m hm).delete hi.fresh hh (fun h => hi.others hn j m hne hm (h.symm.trans ho))
      (by rw [hl]; rfl)
  · refine Finset.mem_erase.mpr ⟨?_, hok.owned how s hs hf⟩
    rintro rfl
    exact hf (hkey.2 s rfl hs)

theorem inv_release (hi : Inv w) (hn : w.nodes i = some n) (hj : n.job = .vacuuming)
    (hb : n.bound = some doc) (hf : w.Fresh token) :
    Inv ((w.swap token { doc with lock := none }).set i
      { n with job := .swapped token { doc with lock := none } (.release finished) }) := by
  have hok := hi.node i n hn
  have hjob := hok.job
  rw [hj] at hjob
  obtain ⟨d, t, hh, -, hb', ho, hl⟩ := hjob
  cases hb'.symm.trans hb
  have hc := hi.closure _ hh
  refine hi.swap (hi.others hn) rfl hf hc (fun x hx => ?_) (.inl ho)
    (hok.swapSelf (.inl ⟨_, hh, ho⟩) ⟨ho, List.mem_cons_self, nofun, fun _ => hc⟩)
  cases hh.symm.trans hx
  exact .inr (.inl hl)

theorem inv_bind (hi : Inv w) (hn : w.nodes i = some n) (hj : n.job = .swapped token doc after) :
    Inv (w.set i (n.bind token doc after)) := by
  have hok := hi.node i n hn
  have hjob := hok.job
  rw [hj] at hjob
  obtain ⟨ho, hm, hlock, hc⟩ := hjob
  have hbound : ∀ t, some token = some t → ∃ d, some doc = some d ∧ (t, d) ∈ w.history ∧
      d.owner = n.owner := by
    rintro t ⟨⟩
    exact ⟨doc, rfl, hm, ho⟩
  cases after with
  | ship =>
    refine hi.here hn rfl ⟨hbound, nofun, hok.owned, rfl, fun how id hid => hc how _ ?_⟩
    simp only [Doc.closure, Finset.mem_insert, Finset.mem_union, Finset.mem_image]
    exact .inr (.inl (.inl (.inl ⟨id, hid, rfl⟩)))
  | lock =>
    exact hi.here hn rfl
      ⟨hbound, nofun, hok.owned, doc, token, (hlock rfl).2, rfl, rfl, ho, (hlock rfl).1⟩
  | release finished => exact hi.here hn rfl ⟨hbound, nofun, hok.owned, trivial⟩
  | reopen => exact hi.here hn rfl ⟨hbound, nofun, hok.owned, trivial⟩

theorem inv_crash (hi : Inv w) (hn : w.nodes i = some n) : Inv (w.set i n.reopen) := by
  have hok := hi.node i n hn
  have hr : ∀ id, n.reopen.Refers id → n.Refers id := by
    rintro id (h | h)
    · exact .inl h
    · simp [Node.reopen] at h
  refine hi.here hn rfl ⟨hok.bound, fun h id hid => hok.unbound h id (hr id hid),
    fun h id hid => hok.owned h id (hr id hid), ?_⟩
  have hjob := hok.job
  cases hj : n.job with
  | swapped t doc after =>
    rw [hj] at hjob
    simp only [Node.reopen, hj]
    exact ⟨hjob.1, hjob.2.1, nofun, hjob.2.2.2⟩
  | idle | shipping doc todo | shipped | vacuuming | deleting keys | restoring t d =>
    simp only [Node.reopen, hj]
    trivial

theorem inv_restoreLock (hi : Inv w) (ho : w.NewOwner owner) (hh : w.head = some (old, doc))
    (hl : doc.lock = none) (hf : w.Fresh token) :
    Inv ((w.swap token { doc with lock := some ⟨.restore, owner⟩ }).set i
      ⟨owner, none, none, ∅, ∅, ∅, ∅, ∅, false,
        .restoring token { doc with lock := some ⟨.restore, owner⟩ }⟩) := by
  have hc := hi.closure _ hh
  have hnew := ho.2 _ (List.mem_of_mem_head? hh)
  refine hi.swap (fun j m _ hm => ho.1 j m hm) rfl hf hc (fun x hx => ?_)
    (.inr ⟨_, hh, rfl⟩) ⟨nofun, fun _ id hr => ?_, fun _ id hr => ?_, List.mem_cons_self, ⟨_, rfl⟩,
      List.forall_mem_cons.mpr ⟨hnew, ho.2⟩⟩
  · cases hh.symm.trans hx
    exact .inl hl
  · simp [Node.Refers] at hr
  · simp [Node.Refers] at hr

theorem restoring_head (hi : Inv w) (hn : w.nodes i = some n) (hj : n.job = .restoring token doc)
    (ht : w.token = some token) : w.head = some (token, doc) ∧
    (∃ o, doc.lock = some ⟨.restore, o⟩) ∧ ∀ x ∈ w.history, x.2.owner ≠ n.owner := by
  have hjob := (hi.node i n hn).job
  rw [hj] at hjob
  obtain ⟨⟨t, d⟩, hx, hxt⟩ := Option.map_eq_some_iff.mp ht
  cases hxt
  obtain rfl := head_unique hi.fresh (List.mem_of_mem_head? hx) hjob.1
  exact ⟨hx, hjob.2⟩

theorem inv_restored (hi : Inv w) (hn : w.nodes i = some n) (hj : n.job = .restoring token doc)
    (ht : w.token = some token) (hf : w.Fresh token') (hc : catalog ⊆ doc.segments ∪ files) :
    Inv ((w.swap token' { doc with lock := none, owner := n.owner }).set i
      { n with
        token := some token', bound := some { doc with lock := none, owner := n.owner }
        remoteIds := catalog, catalog := catalog, pages := pages, pins := ∅, files := files
        job := .idle }) := by
  obtain ⟨hh, hl, -⟩ := restoring_head hi hn hj ht
  have hclosure := hi.closure _ hh
  refine hi.swap (hi.others hn) rfl hf hclosure (fun x hx => ?_) (.inl rfl)
    ⟨?_, nofun, fun _ id hr hfile => hclosure _ ?_, trivial⟩
  · cases hh.symm.trans hx
    exact .inr (.inr hl)
  · rintro t ⟨⟩
    exact ⟨_, rfl, List.mem_cons_self, rfl⟩
  · rcases hr with hr | hr
    · rcases Finset.mem_union.mp (hc hr) with hs | hs
      · simp only [Doc.closure, Finset.mem_insert, Finset.mem_union, Finset.mem_image]
        exact .inr (.inl (.inl (.inl ⟨id, hs, rfl⟩)))
      · exact absurd hs hfile
    · simp at hr

theorem inv_unrestored (hi : Inv w) (hn : w.nodes i = some n) (hj : n.job = .restoring token doc)
    (ht : w.token = some token) (hf : w.Fresh token') :
    Inv ((w.swap token' { doc with lock := none }).set i
      { n with job := .idle, fenced := true }) := by
  obtain ⟨hh, ⟨o, hl⟩, hnew⟩ := restoring_head hi hn hj ht
  have hok := (hi.node i n hn).swap (t := token') (d := { doc with lock := none }) hf ?_ ?_
  · have hc := hi.closure _ hh
    refine hi.swap (hi.others hn) rfl hf hc (fun x hx => ?_) (.inr ⟨_, hh, rfl⟩)
      ⟨hok.bound, hok.unbound, hok.owned, trivial⟩
    cases hh.symm.trans hx
    exact .inr (.inr ⟨o, hl⟩)
  · intro x hx hlock
    cases hh.symm.trans hx
    rw [hl] at hlock
    cases hlock
  · exact fun ho => ⟨_, hh, ho⟩

theorem inv_step (hi : Inv w) (hs : Step w i w') : Inv w' := by
  cases hs with
  | create hn ho hc =>
    refine hi.update hi.fresh hi.closure (fun j m _ hm => ho.1 j m hm) rfl
      (fun j m _ hm => hi.node j m hm) ⟨nofun, fun _ id hr => ?_, fun _ id hr hf => ?_, trivial⟩
    · rcases hr with hr | hr
      · exact hc hr
      · simp at hr
    · rcases hr with hr | hr
      · exact absurd (hc hr) hf
      · simp at hr
  | here hn hl => exact hi.here hn (local_same hl).1 ((hi.node _ _ hn).local hl)
  | crash hn hj => exact inv_crash hi hn
  | finish hn hj hs => exact hi.here hn rfl ((hi.node _ _ hn).setJob trivial)
  | reconcile hn hj hf ht hw ho hl =>
    have hok := hi.node _ _ hn
    refine hi.here hn rfl ⟨?_, nofun, hok.owned, by rw [hj]; trivial⟩
    rintro t ⟨⟩
    exact ⟨_, rfl, List.mem_of_mem_head? hw, ho⟩
  | ship hn hj hf hm ho hl hc hk => exact inv_ship hi hn hm ho hk
  | put hn hj ha => exact inv_put hi hn hj
  | publish hn hj ht hf => exact inv_publish hi hn hj ht hf
  | archive id hn hj hc hr => exact inv_archive hi hn hj hr
  | lock hn hj hf hm hl ht => exact inv_lock hi hn hm hl ht
  | resume hn hj hf hm hl =>
    obtain ⟨t, hh, ht, ho⟩ := hm
    have hb := (hi.bound_head hn hh ht).1
    exact hi.here hn rfl ((hi.node _ _ hn).setJob ⟨_, t, hh, ht, hb, ho, hl⟩)
  | list hn hj hf hb hk => exact inv_list hi hn hj hb hk
  | delete hn hj => exact inv_delete hi hn hj
  | listed hn hj =>
    have hjob := (hi.node _ _ hn).job
    rw [hj] at hjob
    obtain ⟨d, hl, -⟩ := hjob
    exact hi.here hn rfl ((hi.node _ _ hn).setJob ⟨d, hl⟩)
  | release finished hn hj hb ht hf => exact inv_release hi hn hj hb hf
  | bind hn hj ha => exact inv_bind hi hn hj
  | recover hn hj hw =>
    have hok := hi.node _ _ hn
    have hjob := hok.job
    rw [hj] at hjob
    refine hi.here hn rfl ⟨?_, nofun, hok.owned, trivial⟩
    rintro t ⟨⟩
    exact ⟨_, rfl, List.mem_of_mem_head? hw, hjob.1⟩
  | unresolved hn hj fenced =>
    have hok := hi.node _ _ hn
    exact hi.here hn rfl ⟨hok.bound, hok.unbound, hok.owned, trivial⟩
  | restoreLock hn ho hw hl hf => exact inv_restoreLock hi ho hw hl hf
  | restored hn hj ht hf hc => exact inv_restored hi hn hj ht hf hc
  | unrestored hn hj ht hf => exact inv_unrestored hi hn hj ht hf

theorem inv_start (h : Start w) : Inv w := by
  obtain ⟨-, hh, hn⟩ := h
  refine ⟨by simp [hh], by simp [World.head, hh], by simp [hn], by simp [hn]⟩

theorem inv_reachable (h : (machine Start).Reachable w) : Inv w :=
  h.invariant (fun _ => inv_start) fun _ _ _ hi hs => inv_step hi hs

-- Ownership

/-- Who may change the head: its owner, or the first to publish; or a restore, which keeps the owner
or takes the head over under an owner of its own. -/
theorem step_history (hi : Inv w) (hs : Step w j w') : w'.history = w.history ∨ ∃ x,
    w'.history = x :: w.history ∧
    ((∃ n, w.nodes j = some n ∧ x.2.owner = n.owner ∧
        (w.history = [] ∨ Owns w.history n.owner ∨ ∀ y ∈ w.history, y.2.owner ≠ n.owner)) ∨
      Owns w.history x.2.owner ∧
        ∀ n, w.nodes j = some n → ∀ y ∈ w.history, y.2.owner ≠ n.owner) := by
  cases hs with
  | publish hn hj ht hf =>
    have hjob := (hi.node _ _ hn).job
    rw [hj] at hjob
    refine .inr ⟨_, rfl, .inl ⟨_, hn, hjob.1, ?_⟩⟩
    cases hx : w.head with
    | none => exact .inl (List.head?_eq_none_iff.mp hx)
    | some x =>
      have htx := (ht.symm.trans (congrArg (Option.map Prod.fst) hx))
      exact .inr (.inl ⟨x, hx, (hi.bound_head hn hx htx).2⟩)
  | lock hn hj hf hm hl ht =>
    obtain ⟨t, hh, -, ho⟩ := hm
    exact .inr ⟨_, rfl, .inl ⟨_, hn, ho, .inr (.inl ⟨_, hh, ho⟩)⟩⟩
  | release finished hn hj hb ht hf =>
    have hjob := (hi.node _ _ hn).job
    rw [hj] at hjob
    obtain ⟨d, t, hh, -, hb', ho, -⟩ := hjob
    cases hb'.symm.trans hb
    exact .inr ⟨_, rfl, .inl ⟨_, hn, ho, .inr (.inl ⟨_, hh, ho⟩)⟩⟩
  | restoreLock hn ho hw hl hf =>
    exact .inr ⟨_, rfl, .inr ⟨⟨_, hw, rfl⟩, fun n h => by rw [hn] at h; cases h⟩⟩
  | restored hn hj ht hf hc =>
    exact .inr ⟨_, rfl, .inl ⟨_, hn, rfl, .inr (.inr (restoring_head hi hn hj ht).2.2)⟩⟩
  | unrestored hn hj ht hf =>
    obtain ⟨hh, -, hnew⟩ := restoring_head hi hn hj ht
    refine .inr ⟨_, rfl, .inr ⟨⟨_, hh, rfl⟩, fun n h => ?_⟩⟩
    cases hn.symm.trans h
    exact hnew
  | create | here | crash | finish | reconcile | ship | put | archive | resume | list | delete
  | listed | bind | recover | unresolved => exact .inl rfl

theorem update_owner {nodes : Nat → Option Node} (hm : ∀ m, nodes j = some m → m'.owner = m.owner)
    (hn : nodes i = some n) :
    ∃ n', Function.update nodes j (some m') i = some n' ∧ n'.owner = n.owner := by
  by_cases hi : i = j
  · subst hi
    exact ⟨m', by simp, hm n hn⟩
  · exact ⟨n, by simpa [Function.update_of_ne hi] using hn, rfl⟩

theorem step_owner (hs : Step w j w') (hn : w.nodes i = some n) :
    ∃ n', w'.nodes i = some n' ∧ n'.owner = n.owner := by
  cases hs with
  | create hj ho hc => exact update_owner (fun m h => by cases hj.symm.trans h) hn
  | restoreLock hj ho hw hl hf =>
    exact update_owner (fun m h => by cases hj.symm.trans h) hn
  | here hj hl =>
    refine update_owner (fun m h => ?_) hn
    cases hj.symm.trans h
    exact (local_same hl).1
  | bind hj hb ha =>
    refine update_owner (fun m h => ?_) hn
    cases hj.symm.trans h
    rename_i after _ _
    cases after <;> rfl
  | crash hj | finish hj | reconcile hj | ship hj | put hj | publish hj | archive _ hj | lock hj
  | resume hj | list hj | delete hj | listed hj | release _ hj | recover hj | unresolved hj
  | restored hj | unrestored hj =>
    refine update_owner (fun m h => ?_) hn
    cases hj.symm.trans h
    rfl

/-- A database that owned the head and does not own it now. -/
structure Lost (i : Nat) (owner : Text) (w : World) : Prop where
  node : ∃ n, w.nodes i = some n ∧ n.owner = owner
  owned : ∃ x ∈ w.history, x.2.owner = owner
  lost : ¬Owns w.history owner

theorem lost_step (hi : Inv w) (hl : Lost i o w) (hs : Step w j w') :
    Lost i o w' ∧ (j = i → w'.history = w.history) := by
  obtain ⟨⟨n, hn, hno⟩, ⟨x, hx, hxo⟩, hlost⟩ := hl
  obtain ⟨n', hn', hno'⟩ := step_owner hs hn
  rcases step_history hi hs with hh | ⟨y, hh, hy⟩
  · exact ⟨⟨⟨n', hn', hno'.trans hno⟩, ⟨x, hh ▸ hx, hxo⟩, hh ▸ hlost⟩, fun _ => hh⟩
  · have hne : y.2.owner ≠ o ∧ j ≠ i := by
      rcases hy with ⟨m, hm, hym, hcase⟩ | ⟨hown, hnew⟩
      · have hji : j ≠ i := by
          rintro rfl
          cases hn.symm.trans hm
          rcases hcase with hnil | hown | hnew
          · rw [hnil] at hx
            cases hx
          · exact hlost (hno ▸ hown)
          · exact hnew x hx (hxo.trans hno.symm)
        exact ⟨fun h => hji (hi.owners _ _ _ _ hm hn (hym.symm.trans (h.trans hno.symm))), hji⟩
      · refine ⟨fun h => hlost (h ▸ hown), ?_⟩
        rintro rfl
        exact hnew n hn x hx (hxo.trans hno.symm)
    refine ⟨⟨⟨n', hn', hno'.trans hno⟩, ⟨x, hh ▸ List.mem_cons_of_mem _ hx, hxo⟩, ?_⟩,
      fun hji => absurd hji hne.2⟩
    rintro ⟨z, hz, hzo⟩
    rw [hh] at hz
    cases hz
    exact hne.1 hzo

/-- A committed head has every object it needs, for every interleaving of the processes. -/
theorem store_safe (hr : (machine Start).Reachable w) :
    (∀ x, w.head = some x → ∀ k ∈ x.2.closure, k ∈ w.objects) ∧
    (∀ i n x, w.nodes i = some n → w.head = some x → x.2.owner = n.owner →
      ∀ s, n.Refers s → s ∉ n.files → .segment s ∈ w.objects) ∧
    (∀ i n, w.nodes i = some n → (∃ x ∈ w.history, x.2.owner = n.owner) →
      (∀ x, w.head = some x → x.2.owner ≠ n.owner) → ∀ v, (machine (· = w)).Reachable v →
      (∀ x, v.head = some x → x.2.owner ≠ n.owner) ∧ ∀ v', Step v i v' →
        v'.history = v.history) := by
  have hi := inv_reachable hr
  refine ⟨hi.closure, fun i n x hn hx ho s hs hf => ?_, fun i n hn hown hlost v hv => ?_⟩
  · exact (hi.node i n hn).owned ⟨x, hx, ho⟩ s hs hf
  · have hl : Lost i n.owner w := ⟨⟨n, hn, rfl⟩, hown, fun ⟨x, hx, hxo⟩ => hlost x hx hxo⟩
    obtain ⟨hiv, hlv⟩ := hv.invariant (I := fun v => Inv v ∧ Lost i n.owner v)
      (fun _ h => h ▸ ⟨hi, hl⟩) fun _ _ _ h hs => ⟨inv_step h.1 hs, (lost_step h.1 h.2 hs).1⟩
    exact ⟨fun x hx hxo => hlv.lost ⟨x, hx, hxo⟩, fun v' hs => (lost_step hiv hlv hs).2 rfl⟩

def oneSegment (job : Job) : Node := ⟨['a'], none, none, ∅, {['s']}, ∅, ∅, {['s']}, false, job⟩

def oneDoc : Doc := ⟨['a'], none, ['m'], {['s']}, ∅, ∅, ∅⟩

theorem store_safe_shipped : ∃ w x, (machine Start).Reachable w ∧ w.head = some x ∧
    .segment ['s'] ∈ x.2.closure ∧ .segment ['s'] ∈ w.objects := by
  have h0 : (machine Start).Reachable ⟨∅, [], fun _ => none⟩ := .init ⟨rfl, rfl, fun _ => rfl⟩
  have h1 : (machine Start).Reachable (World.set _ 0 (oneSegment .idle)) :=
    h0.step (.create rfl ⟨nofun, nofun⟩ subset_rfl)
  have hk : ∀ k ∈ oneDoc.closure, k ∈ [Key.manifest ['m'], .segment ['s']] := by decide
  have h2 := h1.step (.ship (show World.nodes _ 0 = some (oneSegment .idle) from rfl) rfl rfl
    (.inl ⟨rfl, rfl⟩) rfl
    rfl (Finset.Subset.refl _) hk)
  have h3 := h2.step (.put (show World.nodes _ 0 =
    some (oneSegment (.shipping oneDoc [.manifest ['m'], .segment ['s']]))
    from rfl) rfl nofun)
  have h4 := h3.step (.put (show World.nodes _ 0 =
    some (oneSegment (.shipping oneDoc [.segment ['s']])) from rfl) rfl
    fun _ h => .inl (by cases h; exact Finset.mem_singleton_self _))
  have h5 := h4.step (.publish (show World.nodes _ 0 =
    some (oneSegment (.shipping oneDoc [])) from rfl) rfl rfl
    (show World.Fresh _ ['t'] from nofun))
  have hc : .segment ['s'] ∈ oneDoc.closure := by decide
  exact ⟨_, _, h5, rfl, hc, (store_safe h5).1 _ rfl _ hc⟩

end Varve.Tier.Fleet
