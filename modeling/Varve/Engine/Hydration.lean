import Varve.Lib.Sorted
import Varve.Engine.Accounting

/-!
# Reading a page set back

`hydrate_set` against `encode_set`: the pages of a set give back the entries it was encoded from,
in any other order or number they are refused.
-/

namespace Varve.Engine

open Result (ensure ensure_bind bind_ok ensure_ok)
open Text (toHex)
open Journal (Digest)
open Sorted (Keys toList_eq_iff)

section
variable {T : Type} {H : Digest} {table : Text} {kind : PageKind} {limits : PageLimits}
  {json : T → Text} {validate : Text → T → Except String Unit} {resident : Text → T → Nat}
  {fromSlice : Bytes → Except String (Payload T)} {load : PageRef → Except String Bytes}

def residentSum (resident : Text → T → Nat) (entries : List (Text × T)) : Nat :=
  (entries.map fun p => resident p.1 p.2).sum

/-- The state of a hydration that has taken up some entries. -/
def hydrating (resident : Text → T → Nat) (entries : List (Text × T)) : Hydrating T :=
  ⟨Map.ofList entries, residentSum resident entries, entries.getLast?.map Prod.fst⟩

-- Entries

theorem keys_append {l m : List (Text × T)} : Keys compare (l ++ m) ↔
    Keys compare l ∧ Keys compare m ∧ ∀ p ∈ l, ∀ q ∈ m, compare p.1 q.1 = .lt :=
  List.pairwise_append

theorem keys_concat {entries : List (Text × T)} {key : Text} {value : T}
    (h : Keys compare entries) :
    Keys compare (entries ++ [(key, value)]) ↔
      (entries.getLast?.map Prod.fst).all fun previous => compare previous key = .lt := by
  rw [keys_append]
  cases hl : entries.getLast? with
  | none =>
    have hnil : entries = [] := List.getLast?_eq_none_iff.mp hl
    simp [hnil, Keys]
  | some last =>
    obtain ⟨front, rfl⟩ := List.getLast?_eq_some_iff.mp hl
    simp only [Option.map_some, Option.all_some, decide_eq_true_eq]
    constructor
    · rintro ⟨-, -, hlt⟩
      exact hlt last (by simp) (key, value) (by simp)
    · intro hlt
      refine ⟨h, by simp [Keys], ?_⟩
      intro p hp q hq
      rw [List.mem_singleton.mp hq]
      rcases List.mem_append.mp hp with hp | hp
      · exact Std.TransCmp.lt_trans ((keys_append.mp h).2.2 p hp last (by simp)) hlt
      · rw [List.mem_singleton.mp hp]
        exact hlt

theorem ofList_concat (entries : List (Text × T)) (key : Text) (value : T) :
    Map.ofList (entries ++ [(key, value)]) = (Map.ofList entries).insert key value := by
  simp [Map.ofList, Std.ExtTreeMap.ofList_eq_foldl]

theorem toList_ofList {entries : List (Text × T)} (h : Keys compare entries) :
    (Map.ofList entries).toList = entries := by
  refine toList_eq_iff.mpr ⟨h, ?_⟩
  induction entries using List.reverseRecOn with
  | nil => simp [Map.ofList]
  | append_singleton entries p ih =>
    obtain ⟨key, value⟩ := p
    obtain ⟨hentries, -, hbelow⟩ := keys_append.mp h
    intro k v
    rw [ofList_concat, Map.lookup_insert, List.mem_append, ih hentries]
    by_cases hk : key = k
    · have hnone : (Map.ofList entries)[k]? ≠ some v := by
        intro hv
        have hlt := hbelow (k, v) ((ih hentries k v).mpr hv) (key, value) (by simp)
        simp [hk, Std.ReflCmp.compare_self] at hlt
      simp [hk, hnone, eq_comm]
    · simp [hk, Ne.symm hk]

theorem notMem_ofList {entries : List (Text × T)}
    (h : Keys compare (entries ++ [(key, value)])) : key ∉ Map.ofList entries := by
  obtain ⟨hentries, -, hbelow⟩ := keys_append.mp h
  intro hmem
  obtain ⟨v, hv⟩ := Option.isSome_iff_exists.mp (Std.ExtTreeMap.isSome_getElem?_iff_mem.mpr hmem)
  have hin : (key, v) ∈ entries := by
    rw [← toList_ofList hentries]
    exact Map.mem_toList.mpr hv
  have hlt := hbelow _ hin (key, value) (by simp)
  simp [Std.ReflCmp.compare_self] at hlt

theorem hydrating_concat (entries : List (Text × T)) (key : Text) (value : T) :
    hydrating resident (entries ++ [(key, value)]) =
      ⟨(hydrating resident entries).rows.insert key value,
        (hydrating resident entries).residentBytes + resident key value, some key⟩ := by
  simp [hydrating, ofList_concat, residentSum]

theorem hydrateEntries_ok {taken entries : List (Text × T)} {h : Hydrating T}
    (ht : Keys compare taken) :
    hydrateEntries limits validate resident (hydrating resident taken) entries = .ok h ↔
      h = hydrating resident (taken ++ entries) ∧ Keys compare (taken ++ entries) ∧
        (∀ p ∈ entries, validate p.1 p.2 = .ok ()) ∧
        (entries ≠ [] → residentSum resident (taken ++ entries) ≤ limits.maxBytes) := by
  induction entries generalizing taken with
  | nil => simp [hydrateEntries, ht, eq_comm]
  | cons p entries ih =>
    obtain ⟨key, value⟩ := p
    have hassoc : taken ++ (key, value) :: entries = (taken ++ [(key, value)]) ++ entries := by simp
    have hnext : (⟨(hydrating resident taken).rows.insert key value,
        (hydrating resident taken).residentBytes + resident key value, some key⟩ : Hydrating T) =
        hydrating resident (taken ++ [(key, value)]) := (hydrating_concat taken key value).symm
    have hbytes : (hydrating resident taken).residentBytes + resident key value =
        residentSum resident (taken ++ [(key, value)]) := by simp [hydrating, residentSum]
    have hgrow : residentSum resident (taken ++ [(key, value)]) ≤
        residentSum resident (taken ++ (key, value) :: entries) := by
      simp only [residentSum, List.map_append, List.sum_append, List.map_cons, List.sum_cons,
        List.map_nil, List.sum_nil]
      omega
    simp only [hydrateEntries, ensure_bind, hnext]
    rw [hassoc]
    constructor
    · rintro ⟨hprev, hrest⟩
      obtain ⟨⟨⟩, hvalid, hrest⟩ := bind_ok.mp hrest
      simp only [ensure_bind] at hrest
      obtain ⟨hfits, -, hrest⟩ := hrest
      have hkeys : Keys compare (taken ++ [(key, value)]) := (keys_concat ht).mpr hprev
      obtain ⟨rfl, hall, hvalids, hmax⟩ := (ih hkeys).mp hrest
      refine ⟨rfl, hall, List.forall_mem_cons.mpr ⟨hvalid, hvalids⟩, fun _ => ?_⟩
      cases entries with
      | nil => simpa [hbytes] using hfits
      | cons q entries => exact hmax (by simp)
    · rintro ⟨rfl, hall, hvalids, hmax⟩
      obtain ⟨hvalid, hvalids⟩ := List.forall_mem_cons.mp hvalids
      have hkeys : Keys compare (taken ++ [(key, value)]) := (keys_append.mp hall).1
      have hle := hmax (by simp)
      rw [← hassoc] at hle
      refine ⟨(keys_concat ht).mp hkeys, bind_ok.mpr ⟨(), hvalid, ?_⟩⟩
      simp only [ensure_bind]
      refine ⟨hbytes ▸ hgrow.trans hle, notMem_ofList hkeys, (ih hkeys).mpr ?_⟩
      refine ⟨rfl, hall, hvalids, ?_⟩
      intro _
      rw [← hassoc]
      exact hle

-- Pages

/-- The working budget admits the pages one after the other, each beside what is resident. -/
def HydrationFits (limits : PageLimits) (resident : Text → T → Nat) :
    Nat → List PageRef → List (Text × T) → Prop
  | _, [], _ => True
  | used, page :: pages, rows =>
    used + page.bytes * 64 ≤ limits.maxBytes ∧
      used + residentSum resident (rows.take page.entries) ≤ limits.maxBytes ∧
      HydrationFits limits resident (used + residentSum resident (rows.take page.entries)) pages
        (rows.drop page.entries)

instance HydrationFits.decidable : ∀ (used : Nat) (pages : List PageRef) (rows : List (Text × T)),
    Decidable (HydrationFits limits resident used pages rows)
  | _, [], _ => isTrue trivial
  | used, page :: pages, rows =>
    have := decidable (used + residentSum resident (rows.take page.entries)) pages
      (rows.drop page.entries)
    inferInstanceAs (Decidable (_ ∧ _ ∧ _))

/-- The reader of a page gives back the entries whose text it is. -/
def Reads (fromSlice : Bytes → Except String (Payload T)) (table : Text) (kind : PageKind)
    (json : T → Text) (entries : List (Text × T)) : Prop :=
  fromSlice (Text.utf8 (pageText table kind json entries)) = .ok ⟨table, kind, entries⟩

theorem pageText_of_bytes (entries : List (Text × T)) :
    ((encodePage H table kind json entries).bytes.take
        ((encodePage H table kind json entries).bytes.length - 32)).drop 8 =
      Text.utf8 (pageText table kind json entries) := by
  have hlen : (sealText H pageMagic (pageText table kind json entries)).length - 32 =
      (pageMagic ++ Text.utf8 (pageText table kind json entries)).length := by
    simp [length_sealText]
  simp only [encodePage, hlen]
  rw [sealText, List.take_left', List.drop_left']
  · rfl
  · rfl

theorem verify_ok {p : PageRef} : p.verify H bytes = .ok () ↔
    p.validate = .ok () ∧ bytes.length = p.bytes ∧ toHex (H.hash bytes) = p.digest ∧
      bytes.take 8 = pageMagic ∧
      H.hash (bytes.take (bytes.length - 32)) = bytes.drop (bytes.length - 32) := by
  rw [PageRef.verify, bind_ok]
  simp only [ensure_bind, ensure_ok]
  constructor
  · rintro ⟨⟨⟩, h⟩
    exact h
  · intro h
    exact ⟨(), h⟩

theorem verify_encodePage (entries : List (Text × T))
    (h : (encodePage H table kind json entries).ref.validate = .ok ()) :
    (encodePage H table kind json entries).ref.verify H
      (encodePage H table kind json entries).bytes = .ok () := by
  have hlen : (sealText H pageMagic (pageText table kind json entries)).length - 32 =
      (pageMagic ++ Text.utf8 (pageText table kind json entries)).length := by
    simp [length_sealText]
  refine verify_ok.mpr ⟨h, rfl, rfl, ?_, ?_⟩
  · simp only [encodePage, sealText, List.append_assoc]
    exact List.take_left' rfl
  · simp only [encodePage, hlen]
    rw [sealText, List.take_left', List.drop_left']
    · rfl
    · rfl

/-- What is loaded for a page collides with nothing but the page itself. -/
def NoCollision (H : Digest) (load : PageRef → Except String Bytes) (page : Page) : Prop :=
  ∀ bytes, load page.ref = .ok bytes → H.hash bytes = H.hash page.bytes → bytes = page.bytes

theorem hydratePage_ok {taken group : List (Text × T)} {h : Hydrating T}
    (ht : Keys compare taken) (hg : group ≠ [])
    (hcol : NoCollision H load (encodePage H table kind json group))
    (hread : Reads fromSlice table kind json group)
    (hv : (encodePage H table kind json group).ref.validate = .ok ()) :
    hydratePage H table kind limits fromSlice validate resident load (hydrating resident taken)
        (encodePage H table kind json group).ref = .ok h ↔
      load (encodePage H table kind json group).ref =
          .ok (encodePage H table kind json group).bytes ∧
        h = hydrating resident (taken ++ group) ∧ Keys compare (taken ++ group) ∧
        (∀ p ∈ group, validate p.1 p.2 = .ok ()) ∧
        residentSum resident taken + (encodePage H table kind json group).ref.bytes * 64 ≤
          limits.maxBytes ∧
        residentSum resident (taken ++ group) ≤ limits.maxBytes := by
  unfold Reads at hread
  simp only [hydratePage, ensure_bind]
  constructor
  · rintro ⟨hwork, hrest⟩
    obtain ⟨bytes, hload, hrest⟩ := bind_ok.mp hrest
    obtain ⟨⟨⟩, hverify, hrest⟩ := bind_ok.mp hrest
    have hhash : H.hash bytes = H.hash (encodePage H table kind json group).bytes :=
      Text.toHex_injective (verify_ok.mp hverify).2.2.1
    obtain rfl := hcol bytes hload hhash
    rw [pageText_of_bytes, hread, Result.ok_bind] at hrest
    simp only [ensure_bind] at hrest
    obtain ⟨-, -, hrest⟩ := hrest
    obtain ⟨rfl, hkeys, hvalid, hmax⟩ := (hydrateEntries_ok ht).mp hrest
    exact ⟨hload, rfl, hkeys, hvalid, hwork, hmax hg⟩
  · rintro ⟨hload, rfl, hkeys, hvalid, hwork, hmax⟩
    refine ⟨hwork, ?_⟩
    rw [hload, Result.ok_bind, verify_encodePage group hv, Result.ok_bind, pageText_of_bytes, hread,
      Result.ok_bind]
    simp only [ensure_bind]
    exact ⟨⟨trivial, trivial⟩, rfl, (hydrateEntries_ok ht).mpr ⟨rfl, hkeys, hvalid, fun _ => hmax⟩⟩

theorem hydratePages_ok {taken : List (Text × T)} {groups : List (List (Text × T))}
    {h : Hydrating T} (ht : Keys compare taken) (hg : ∀ group ∈ groups, group ≠ [])
    (hcol : ∀ group ∈ groups, NoCollision H load (encodePage H table kind json group))
    (hread : ∀ group ∈ groups, Reads fromSlice table kind json group)
    (hv : ∀ group ∈ groups, (encodePage H table kind json group).ref.validate = .ok ()) :
    (groups.map fun group => (encodePage H table kind json group).ref).foldlM
        (hydratePage H table kind limits fromSlice validate resident load)
        (hydrating resident taken) = .ok h ↔
      h = hydrating resident (taken ++ groups.flatten) ∧
        Keys compare (taken ++ groups.flatten) ∧
        (∀ group ∈ groups, load (encodePage H table kind json group).ref =
          .ok (encodePage H table kind json group).bytes) ∧
        (∀ p ∈ groups.flatten, validate p.1 p.2 = .ok ()) ∧
        HydrationFits limits resident (residentSum resident taken)
          (groups.map fun group => (encodePage H table kind json group).ref) groups.flatten := by
  induction groups generalizing taken with
  | nil => simp [HydrationFits, ht, pure, Except.pure, eq_comm]
  | cons group groups ih =>
    obtain ⟨hg, hgs⟩ := List.forall_mem_cons.mp hg
    obtain ⟨hcol, hcols⟩ := List.forall_mem_cons.mp hcol
    obtain ⟨hread, hreads⟩ := List.forall_mem_cons.mp hread
    obtain ⟨hv, hvs⟩ := List.forall_mem_cons.mp hv
    have hentries : (encodePage H table kind json group).ref.entries = group.length := rfl
    have hsum : residentSum resident taken + residentSum resident group =
        residentSum resident (taken ++ group) := by simp [residentSum]
    rw [List.map_cons, List.foldlM_cons, bind_ok, List.flatten_cons, ← List.append_assoc]
    simp only [hydratePage_ok ht hg hcol hread hv, HydrationFits, hentries, List.take_left',
      List.drop_left', hsum, List.forall_mem_cons, List.forall_mem_append]
    constructor
    · rintro ⟨middle, ⟨hload, rfl, hkeys, hvalid, hwork, hmax⟩, hrest⟩
      obtain ⟨rfl, hall, hloads, hvalids, hfits⟩ := (ih hkeys hgs hcols hreads hvs).mp hrest
      exact ⟨rfl, hall, ⟨hload, hloads⟩, ⟨hvalid, hvalids⟩, hwork, hmax, hfits⟩
    · rintro ⟨rfl, hall, ⟨hload, hloads⟩, ⟨hvalid, hvalids⟩, hwork, hmax, hfits⟩
      have hkeys : Keys compare (taken ++ group) := (keys_append.mp hall).1
      exact ⟨_, ⟨hload, rfl, hkeys, hvalid, hwork, hmax⟩,
        (ih hkeys hgs hcols hreads hvs).mpr ⟨rfl, hall, hloads, hvalids, hfits⟩⟩

-- Sets

theorem validatePages_ok {pages : List PageRef} {digests : List Text}
    (h : validatePages digests entries bytes pages = .ok (entries', bytes')) :
    (∀ p ∈ pages, p.validate = .ok ()) ∧ (∀ p ∈ pages, p.digest ∉ digests) ∧
      (pages.map PageRef.digest).Nodup ∧ entries' = entries + (pages.map PageRef.entries).sum ∧
      bytes' = bytes + (pages.map PageRef.bytes).sum := by
  induction pages generalizing digests entries bytes with
  | nil =>
    cases h
    simp
  | cons page pages ih =>
    unfold validatePages at h
    obtain ⟨⟨⟩, hpage, h⟩ := bind_ok.mp h
    simp only [ensure_bind] at h
    obtain ⟨hnew, -, -, h⟩ := h
    obtain ⟨hpages, hnews, hnodup, hentries, hbytes⟩ := ih h
    refine ⟨List.forall_mem_cons.mpr ⟨hpage, hpages⟩, List.forall_mem_cons.mpr ⟨hnew, ?_⟩, ?_, ?_,
      ?_⟩
    · exact fun p hp hin => hnews p hp (List.mem_cons_of_mem _ hin)
    · refine List.nodup_cons.mpr ⟨?_, hnodup⟩
      intro hin
      obtain ⟨p, hp, he⟩ := List.mem_map.mp hin
      exact hnews p hp (he ▸ List.mem_cons_self)
    · simp only [List.map_cons, List.sum_cons]
      omega
    · simp only [List.map_cons, List.sum_cons]
      omega

theorem PageSet.validate_ok {set : PageSet} (h : set.validate limits = .ok ()) :
    (∀ p ∈ set.pages, p.validate = .ok ()) ∧ (set.pages.map PageRef.digest).Nodup ∧
      set.entries = (set.pages.map PageRef.entries).sum ∧
      set.encodedBytes = (set.pages.map PageRef.bytes).sum := by
  unfold PageSet.validate at h
  obtain ⟨⟨⟩, -, h⟩ := bind_ok.mp h
  simp only [ensure_bind] at h
  obtain ⟨-, h⟩ := h
  obtain ⟨⟨entries, bytes⟩, hpages, h⟩ := bind_ok.mp h
  obtain ⟨hentries, hbytes⟩ := ensure_ok.mp h
  obtain ⟨hvalid, -, hnodup, he, hb⟩ := validatePages_ok hpages
  exact ⟨hvalid, hnodup, by omega, by omega⟩

theorem sublist_eq_of_sum {l m : List α} {f : α → Nat} (h : l.Sublist m) (hf : ∀ a ∈ m, 0 < f a)
    (hs : (l.map f).sum = (m.map f).sum) : l = m := by
  induction h with
  | slnil => rfl
  | cons a h ih =>
    obtain ⟨ha, hf⟩ := List.forall_mem_cons.mp hf
    have hle : (List.map f _).sum ≤ (List.map f _).sum :=
      (h.map f).sum_le_sum fun _ _ => Nat.zero_le _
    simp only [List.map_cons, List.sum_cons] at hs
    omega
  | cons_cons a h ih =>
    obtain ⟨-, hf⟩ := List.forall_mem_cons.mp hf
    simp only [List.map_cons, List.sum_cons] at hs
    rw [ih hf (by omega)]

/-- Every key of one group is below every key of the other. -/
def Below (g h : List (Text × T)) : Prop := ∀ p ∈ g, ∀ q ∈ h, compare p.1 q.1 = .lt

theorem pairwise_below {groups : List (List (Text × T))} (h : Keys compare groups.flatten) :
    groups.Pairwise Below := by
  induction groups with
  | nil => simp
  | cons group groups ih =>
    obtain ⟨-, hgroups, hbelow⟩ := keys_append.mp (List.flatten_cons ▸ h)
    refine List.pairwise_cons.mpr ⟨?_, ih hgroups⟩
    intro next hnext p hp q hq
    exact hbelow p hp q (List.mem_flatten.mpr ⟨next, hnext, hq⟩)

theorem eq_of_keys {groups groups' : List (List (Text × T))} (hperm : groups'.Perm groups)
    (hne : ∀ group ∈ groups, group ≠ []) (hk : Keys compare groups.flatten)
    (hk' : Keys compare groups'.flatten) : groups' = groups := by
  refine hperm.eq_of_pairwise ?_ (pairwise_below hk') (pairwise_below hk)
  intro g h hg hh hgh hhg
  obtain ⟨p, hp⟩ := List.exists_mem_of_ne_nil g (hne g (hperm.mem_iff.mp hg))
  obtain ⟨q, hq⟩ := List.exists_mem_of_ne_nil h (hne h hh)
  have hlt := Std.OrientedCmp.gt_of_lt (hgh p hp q hq)
  simp [hhg q hq p hp] at hlt

/-- A store that holds what the loader returns: it accepts a page that can be loaded again. -/
def stored (load : PageRef → Except String Bytes) (page : Page) : Except String Unit := do
  let bytes ← load page.ref
  ensure (bytes = page.bytes) "derived page not stored"

theorem stored_ok {page : Page} : stored load page = .ok () ↔ load page.ref = .ok page.bytes := by
  rw [stored, bind_ok]
  constructor
  · rintro ⟨bytes, hload, h⟩
    rw [hload, ensure_ok.mp h]
  · intro h
    exact ⟨page.bytes, h, ensure_ok.mpr rfl⟩

theorem exists_groups {f : α → β} {groups : List α} {pages : List β}
    (h : ∀ p ∈ pages, p ∈ groups.map f) :
    ∃ groups' : List α, groups'.map f = pages ∧ ∀ g ∈ groups', g ∈ groups := by
  induction pages with
  | nil => exact ⟨[], rfl, by simp⟩
  | cons p pages ih =>
    obtain ⟨hp, htail⟩ := List.forall_mem_cons.mp h
    obtain ⟨g, hg, rfl⟩ := List.mem_map.mp hp
    obtain ⟨gs, rfl, hgs⟩ := ih htail
    exact ⟨g :: gs, rfl, List.forall_mem_cons.mpr ⟨hg, hgs⟩⟩

theorem perm_of_lengths {groups groups' : List (List α)} (hnod : groups'.Nodup)
    (hsub : ∀ g ∈ groups', g ∈ groups) (hne : ∀ g ∈ groups, g ≠ [])
    (hsum : (groups'.map List.length).sum = (groups.map List.length).sum) :
    groups'.Perm groups := by
  obtain ⟨l, hl, hlg⟩ := List.subperm_of_subset hnod hsub
  have hsame : (l.map List.length).sum = (groups.map List.length).sum := by
    rw [(hl.map List.length).sum_eq, hsum]
  have heq := sublist_eq_of_sum hlg (fun g hg => List.length_pos_iff.mpr (hne g hg)) hsame
  exact hl.symm.trans (heq ▸ List.Perm.refl l)

theorem ofList_toList (map : Map T) : Map.ofList map.toList = map := by
  refine Std.ExtTreeMap.ext_toList ?_
  rw [toList_ofList (Sorted.keys_toList map)]

section
variable {map : Map T} {set : PageSet}

theorem Encoded.groups
    (h : Encoded H table kind limits json validate (stored load) map.toList set) :
    ∃ groups : List (List (Text × T)), groups.flatten = map.toList ∧ (∀ g ∈ groups, g ≠ []) ∧
      set.pages = groups.map (fun g => (encodePage H table kind json g).ref) ∧
      (∀ g ∈ groups, load (encodePage H table kind json g).ref =
        .ok (encodePage H table kind json g).bytes) ∧
      ∀ g ∈ groups, Packing.load (entrySize json) g ≤
        limits.pageBytes - pageOverhead table kind := by
  refine ⟨groupsOf table kind limits json map.toList, ?_, ?_, ?_, ?_, ?_⟩
  · simp [groupsOf, Packing.flatten_pack]
  · exact fun g hg => Packing.ne_nil_of_mem_pack hg
  · simp [h.pages, PageSet.extend, PageSet.empty]
  · exact fun g hg => stored_ok.mp (h.emitted g hg)
  · exact fun g hg => Packing.load_le_of_mem_pack h.fits (Nat.zero_le _) hg

theorem hydrateSet_ok {groups : List (List (Text × T))} {m : Map T}
    (hname : validateName table = .ok ()) (hcheck : set.validate limits = .ok ())
    (hpages : set.pages = groups.map fun g => (encodePage H table kind json g).ref)
    (hne : ∀ g ∈ groups, g ≠ [])
    (hcol : ∀ g ∈ groups, NoCollision H load (encodePage H table kind json g))
    (hread : ∀ g ∈ groups, Reads fromSlice table kind json g) :
    hydrateSet H table kind limits fromSlice validate resident load set = .ok m ↔
      m = Map.ofList groups.flatten ∧ Keys compare groups.flatten ∧
        (∀ g ∈ groups, load (encodePage H table kind json g).ref =
          .ok (encodePage H table kind json g).bytes) ∧
        (∀ p ∈ groups.flatten, validate p.1 p.2 = .ok ()) ∧
        HydrationFits limits resident 0 set.pages groups.flatten := by
  have hvalid : ∀ g ∈ groups, (encodePage H table kind json g).ref.validate = .ok () := by
    intro g hg
    refine (PageSet.validate_ok hcheck).1 _ ?_
    rw [hpages]
    exact List.mem_map.mpr ⟨g, hg, rfl⟩
  have hstart : (⟨∅, 0, none⟩ : Hydrating T) = hydrating resident [] := rfl
  rw [hydrateSet, hname, Result.ok_bind, hcheck, Result.ok_bind, bind_ok, hpages, hstart]
  simp only [hydratePages_ok Keys.nil hne hcol hread hvalid, List.nil_append]
  constructor
  · rintro ⟨h, ⟨rfl, hkeys, hload, hvalids, hfits⟩, hm⟩
    cases hm
    exact ⟨rfl, hkeys, hload, hvalids, hfits⟩
  · rintro ⟨rfl, hkeys, hload, hvalids, hfits⟩
    exact ⟨_, ⟨rfl, hkeys, hload, hvalids, hfits⟩, rfl⟩

theorem hydrateSet_checked {m : Map T}
    (h : hydrateSet H table kind limits fromSlice validate resident load set = .ok m) :
    set.validate limits = .ok () := by
  obtain ⟨⟨⟩, -, h⟩ := bind_ok.mp h
  obtain ⟨⟨⟩, h, -⟩ := bind_ok.mp h
  exact h

/-- A page set gives back the map it was encoded from exactly when the budget admits it, and no
other pages do. -/
theorem hydrate_exact (hread : ∀ entries, entries <:+: map.toList →
      Reads fromSlice table kind json entries)
    (he : encodeSet H table kind limits json validate (stored load) map.toList = .ok set) :
    (∀ m, hydrateSet H table kind limits fromSlice validate resident load set = .ok m ↔
      m = map ∧ HydrationFits limits resident 0 set.pages map.toList) ∧
    (∀ page ∈ set.pages, page.bytes ≤ limits.pageBytes) ∧
    set.entries = (set.pages.map PageRef.entries).sum ∧
    set.encodedBytes = (set.pages.map PageRef.bytes).sum ∧
    ∀ (pages : List PageRef) (loads : PageRef → Except String Bytes),
      (∀ p ∈ pages, p ∈ set.pages) →
      (∀ p ∈ set.pages, ∀ bytes other, load p = .ok bytes → loads p = .ok other →
        H.hash other = H.hash bytes → other = bytes) →
      (pages ≠ set.pages ∨ ∃ p ∈ pages, loads p ≠ load p) →
      ∃ e, hydrateSet H table kind limits fromSlice validate resident loads
        ⟨pages, set.entries, set.encodedBytes⟩ = .error e := by
  have he := encodeSet_ok he
  obtain ⟨groups, hflat, hne, hpages, hload, hfull⟩ := he.groups
  obtain ⟨hvalid, hnodup, hentries, hbytes⟩ := PageSet.validate_ok he.checked
  have hreads : ∀ g ∈ groups, Reads fromSlice table kind json g :=
    fun g hg => hread g (hflat ▸ List.infix_of_mem_flatten hg)
  have hkeys : Keys compare groups.flatten := hflat ▸ Sorted.keys_toList map
  refine ⟨?_, ?_, hentries, hbytes, ?_⟩
  · intro m
    have hcol : ∀ g ∈ groups, NoCollision H load (encodePage H table kind json g) := by
      intro g hg bytes hb _
      exact Except.ok.inj (hb.symm.trans (hload g hg))
    rw [hydrateSet_ok he.name he.checked hpages hne hcol hreads, hflat, ofList_toList]
    refine and_congr_right fun _ => ?_
    exact ⟨fun h => h.2.2.2, fun h => ⟨hflat ▸ hkeys, hload, he.valid, h⟩⟩
  · intro page hpage
    rw [hpages] at hpage
    obtain ⟨g, hg, rfl⟩ := List.mem_map.mp hpage
    obtain ⟨p, hp⟩ := List.exists_mem_of_ne_nil g (hne g hg)
    have hfits := he.fits p (by rw [← hflat]; exact List.mem_flatten.mpr ⟨g, hg, hp⟩)
    have hpos := entrySize_pos json p
    have hle := hfull g hg
    rw [pageRef_bytes]
    omega
  · intro pages loads hsub hcol hdiff
    cases hrun : hydrateSet H table kind limits fromSlice validate resident loads
        ⟨pages, set.entries, set.encodedBytes⟩ with
    | error e => exact ⟨e, rfl⟩
    | ok m =>
      exfalso
      rw [hpages] at hsub
      obtain ⟨groups', hmap, hsub'⟩ := exists_groups hsub
      have hcheck := hydrateSet_checked hrun
      obtain ⟨-, hnodup', hentries', -⟩ := PageSet.validate_ok hcheck
      have hcol' : ∀ g ∈ groups', NoCollision H loads (encodePage H table kind json g) := by
        intro g hg bytes hb hh
        have hin : (encodePage H table kind json g).ref ∈ set.pages := by
          rw [hpages]
          exact List.mem_map.mpr ⟨g, hsub' g hg, rfl⟩
        exact hcol _ hin _ _ (hload g (hsub' g hg)) hb hh
      obtain ⟨-, hkeys', hload', -, -⟩ := (hydrateSet_ok he.name hcheck hmap.symm
        (fun g hg => hne g (hsub' g hg)) hcol' fun g hg => hreads g (hsub' g hg)).mp hrun
      -- No page twice and as many entries as before: the same pages, then in the same order.
      have hnod : groups'.Nodup := by
        have hdigests := hnodup'
        dsimp only at hdigests
        rw [← hmap, List.map_map] at hdigests
        exact hdigests.of_map
      have hsum : (groups'.map List.length).sum = (groups.map List.length).sum :=
        calc (groups'.map List.length).sum
          _ = set.entries := by
            rw [hentries', ← hmap, List.map_map]
            rfl
          _ = (groups.map List.length).sum := by
            rw [hentries, hpages, List.map_map]
            rfl
      have hperm := perm_of_lengths hnod hsub' hne hsum
      have hsame : groups' = groups := eq_of_keys hperm hne hkeys hkeys'
      rcases hdiff with hpg | ⟨p, hp, hl⟩
      · exact hpg (by rw [← hmap, hsame, hpages])
      · rw [← hmap] at hp
        obtain ⟨g, hg, rfl⟩ := List.mem_map.mp hp
        exact hl ((hload' g hg).trans (hload g (hsub' g hg)).symm)

end

end

-- Receipts of one table

/-- A digest of the right length: the budgets do not depend on which one it is. -/
def checksum : Digest := ⟨fun bytes => List.replicate 32 bytes.sum, fun _ => List.length_replicate⟩

def eightReceipts : Map ReceiptEntry :=
  Map.ofList ("abcdefgh".toList.map fun c => ([c], ⟨1, 1, List.replicate 64 'a', none, none⟩))

theorem hydrateSet_working {T : Type} {H : Digest} {table : Text} {kind : PageKind}
    {limits : PageLimits} {validate : Text → T → Except String Unit} {resident : Text → T → Nat}
    {fromSlice : Bytes → Except String (Payload T)} {load : PageRef → Except String Bytes}
    {set : PageSet} (hname : validateName table = .ok ()) (hcheck : set.validate limits = .ok ())
    (hpage : set.pages = page :: pages) (hbytes : limits.maxBytes < page.bytes * 64) :
    hydrateSet H table kind limits fromSlice validate resident load set =
      .error "derived hydration working budget exceeded" := by
  have hfirst : hydratePage H table kind limits fromSlice validate resident load ⟨∅, 0, none⟩ page =
      .error "derived hydration working budget exceeded" := by
    rw [hydratePage, ensure, if_neg (by simp; omega)]
    rfl
  rw [hydrateSet, hname, Result.ok_bind, hcheck, Result.ok_bind, hpage, List.foldlM_cons, hfirst]
  rfl

theorem eightReceipts_large :
    ((encodeReceipts checksum "t".toList eightReceipts (limits smallConfig true 65536)
      fun _ => .ok ()).map fun s => s.pages.head?.any fun page => 65536 < page.bytes * 64) =
      .ok true := by
  decide +kernel

/-- Eight receipts that a small configuration encodes and refuses to hydrate. -/
theorem working_budget_refuses :
    ∃ set : PageSet, smallConfig.validate = .ok () ∧
      encodeReceipts checksum "t".toList eightReceipts (limits smallConfig true 65536)
        (fun _ => .ok ()) = .ok set ∧
      ∀ fromSlice load, hydrateReceipts checksum "t".toList fromSlice load set
        (limits smallConfig true 65536) = .error "derived hydration working budget exceeded" := by
  have hlarge := eightReceipts_large
  generalize hset : encodeReceipts checksum "t".toList eightReceipts
    (limits smallConfig true 65536) (fun _ => .ok ()) = result at hlarge
  cases result with
  | error e => cases hlarge
  | ok set =>
    refine ⟨set, by decide, rfl, fun fromSlice load => ?_⟩
    cases hpages : set.pages with
    | nil => simp [Except.map, hpages] at hlarge
    | cons page pages =>
      have hbytes : 65536 < page.bytes * 64 := by simpa [Except.map, hpages] using hlarge
      exact hydrateSet_working (by decide) (encodeSet_ok hset).checked hpages hbytes

def receiptPage : Page :=
  encodePage checksum "t".toList .receipt ReceiptEntry.json oneReceipt.toList

def receiptSlice (bytes : Bytes) : Except String (Payload ReceiptEntry) :=
  if bytes = Text.utf8 (pageText "t".toList .receipt ReceiptEntry.json []) then
    .ok ⟨"t".toList, .receipt, []⟩
  else .ok ⟨"t".toList, .receipt, oneReceipt.toList⟩

theorem receiptSlice_reads (h : entries <:+: oneReceipt.toList) :
    Reads receiptSlice "t".toList .receipt ReceiptEntry.json entries := by
  have hlist : oneReceipt.toList = [("r".toList, ⟨1, 1, List.replicate 64 'a', none, none⟩)] := by
    decide
  cases entries with
  | nil => exact if_pos rfl
  | cons entry rest =>
    have heq : entry :: rest = oneReceipt.toList := by
      refine h.sublist.eq_of_length_le ?_
      simp [hlist]
    rw [heq, Reads]
    exact if_neg (by decide)

theorem hydrate_exact_oneReceipt :
    ∃ set : PageSet,
      encodeReceipts checksum "t".toList oneReceipt (limits smallConfig true 65536)
        (stored fun _ => .ok receiptPage.bytes) = .ok set ∧
      hydrateReceipts checksum "t".toList receiptSlice (fun _ => .ok receiptPage.bytes) set
        (limits smallConfig true 65536) = .ok oneReceipt ∧
      ∃ e, hydrateReceipts checksum "t".toList receiptSlice
        (fun _ => .ok receiptPage.bytes) ⟨[], set.entries, set.encodedBytes⟩
        (limits smallConfig true 65536) = .error e := by
  obtain ⟨set, hset⟩ := Result.ok_of_isOk (x := encodeReceipts checksum "t".toList oneReceipt
    (limits smallConfig true 65536) (stored fun _ => .ok receiptPage.bytes)) (by decide +kernel)
  have hfits : ((encodeReceipts checksum "t".toList oneReceipt
      (limits smallConfig true 65536) (stored fun _ => .ok receiptPage.bytes)).map fun s =>
        decide (s.pages ≠ [] ∧ HydrationFits (limits smallConfig true 65536) receiptResidentBytes
          0 s.pages oneReceipt.toList)) = .ok true := by decide +kernel
  rw [hset] at hfits
  obtain ⟨hne, hfits⟩ := of_decide_eq_true (Except.ok.inj hfits)
  have hexact := @hydrate_exact ReceiptEntry _ _ _ _ _ _ receiptResidentBytes _ _ _ _
    (fun _ => receiptSlice_reads) hset
  obtain ⟨hread, -, -, -, hrefuse⟩ := hexact
  refine ⟨set, hset, (hread oneReceipt).mpr ⟨rfl, hfits⟩, ?_⟩
  refine hrefuse [] _ (by simp) ?_ (Or.inl hne.symm)
  rintro p - bytes other hb ho -
  exact Except.ok.inj (ho.symm.trans hb)

end Varve.Engine
