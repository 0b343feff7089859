import Varve.Remote.Listing

/-!
# Pages of a listing

A page of a clean tree is a front part of the ordered keys behind the cursor, so that an iteration
over pages returns what was there all the time, and `list_all_bounded` returns every key of a tree
that does not change.
-/

namespace Varve.Remote

open Result (ensure_ok bind_ok forM_ok)
open Selection (sorted perm_sorted sorted_eq pairwise_lt_sorted)

theorem validateKey_of_ne (h : key ≠ []) : validateKey key true = validateKey key false := by
  rw [validateKey, validateKey, if_neg h, if_neg h]

theorem filePathToKey_components (h : validateKey key false = .ok ()) :
    filePathToKey (components key) = key := by
  obtain ⟨w, ws, hw, hkey⟩ := components_cons key
  have hname := (visible_components h).2 w (hw ▸ List.mem_cons_self)
  rw [hw, filePathToKey_cons hname.1, ← hkey]

theorem within_iff (hk : validateKey key false = .ok ()) (hp : validateKey p false = .ok ()) :
    keyIsWithinPrefix key p = true ↔
      ∃ more, more ≠ [] ∧ components key = components p ++ more := by
  rw [keyIsWithinPrefix_iff, or_iff_right (validateKey_ok hp).1]
  constructor
  · rintro ⟨rest, rfl⟩
    exact ⟨components rest, components_ne_nil rest, components_append p rest⟩
  · rintro ⟨more, hmore, hsplit⟩
    obtain ⟨w, ws, hw, hkey⟩ := components_cons p
    have hname := (visible_components hp).2 w (hw ▸ List.mem_cons_self)
    cases more with
    | nil => exact absurd rfl hmore
    | cons m ms =>
      refine ⟨m ++ slashed ms, ?_⟩
      rw [← filePathToKey_components hk, hsplit, hw, List.cons_append,
        filePathToKey_cons hname.1, hkey]
      simp [slashed]

-- Keys of a tree

theorem key_of_mem_paths {d : Directory} (hc : d.Clean base) (hn : ∀ n ∈ base, Name n)
    (hq : q ∈ d.paths base) :
    components (filePathToKey q) = q ∧ validateKey (filePathToKey q) false = .ok () := by
  obtain ⟨path, rfl, hfile, hv⟩ := (mem_paths hc).mp hq
  obtain ⟨hnames, hnode⟩ := clean_metadata hc hv hfile
  have hne : path ≠ [] := by
    rintro rfl
    cases hfile
  exact ⟨components_filePathToKey (by simp [hne]) (List.forall_mem_append.mpr ⟨hn, hnames⟩),
    hnode.2⟩

theorem nodup_keys_below {d : Directory} (hc : d.Clean base) (hn : ∀ n ∈ base, Name n) :
    ((d.paths base).map filePathToKey).Nodup := by
  refine (nodup_paths hc).map_on fun a ha b hb hab => ?_
  rw [← (key_of_mem_paths hc hn ha).1, hab, (key_of_mem_paths hc hn hb).1]

variable {t : Tree}

theorem Tree.nodup_keys (t : Tree) : t.keys.Nodup :=
  nodup_keys_below t.clean fun _ h => (nomatch h)

theorem Tree.mem_keys :
    key ∈ t.keys ↔ validateKey key false = .ok () ∧ IsFile (components key) t.root := by
  constructor
  · intro h
    obtain ⟨q, hq, rfl⟩ := List.mem_map.mp h
    obtain ⟨hcomponents, hvalid⟩ := key_of_mem_paths t.clean (fun _ h => (nomatch h)) hq
    obtain ⟨path, hpath, hfile, -⟩ := (mem_paths t.clean).mp hq
    rw [List.nil_append] at hpath
    exact ⟨hvalid, by rwa [hcomponents, hpath]⟩
  · rintro ⟨hvalid, hfile⟩
    refine List.mem_map.mpr ⟨components key, ?_, filePathToKey_components hvalid⟩
    exact (mem_paths t.clean).mpr ⟨_, rfl, hfile, (visible_components hvalid).1⟩

def Tree.blocked (t : Tree) (p : Text) : Bool := t.keys.any (keyIsWithinPrefix p)

/-- The paths that `list_page` inspects. -/
def inspected (p : Text) : List (List Text) := if p = [] then [[]] else (components p).inits.tail

/-- No object is on the path of the prefix, and every path up to it can be inspected. -/
def Tree.opens (t : Tree) (p : Text) : Bool := !t.blocked p && (inspected p).all (!t.fails ·)

theorem metadata_notDirectory {d : Directory} (h : metadata path d = .notDirectory) :
    ∃ front more fileType, path = front ++ more ∧ more ≠ [] ∧
      metadata front d = .found (.leaf fileType) := by
  induction path generalizing d with
  | nil => cases h
  | cons name path ih =>
    rw [metadata] at h
    cases hf : d.find name with
    | none =>
      rw [hf] at h
      cases h
    | some node =>
      rw [hf] at h
      cases node with
      | leaf fileType =>
        dsimp only at h
        split at h
        · cases h
        · rename_i hp
          exact ⟨[name], path, fileType, rfl, hp, by simp [metadata, hf]⟩
      | dir entries =>
        obtain ⟨front, more, fileType, rfl, hmore, hleaf⟩ := ih h
        exact ⟨name :: front, more, fileType, rfl, hmore, by rw [metadata, hf]; exact hleaf⟩

theorem Tree.metadata_leaf (hv : Visible [] path)
    (h : metadata path t.root = .found (.leaf fileType)) :
    fileType = .file ∧ filePathToKey path ∈ t.keys := by
  obtain ⟨-, hfile, -⟩ := clean_metadata t.clean hv h
  subst hfile
  refine ⟨rfl, List.mem_map.mpr ⟨path, ?_, rfl⟩⟩
  exact (mem_paths t.clean).mpr ⟨path, rfl, h, hv⟩

theorem Tree.blocked_iff (hp : validateKey p false = .ok ()) :
    t.blocked p = true ↔ metadata (components p) t.root = .notDirectory := by
  rw [Tree.blocked, List.any_eq_true]
  constructor
  · rintro ⟨key, hkey, hwithin⟩
    obtain ⟨hvalid, hfile⟩ := Tree.mem_keys.mp hkey
    obtain ⟨more, hmore, hsplit⟩ := (within_iff hp hvalid).mp hwithin
    rw [hsplit, metadata_append hmore, hfile]
  · intro h
    obtain ⟨front, more, fileType, hsplit, hmore, hleaf⟩ := metadata_notDirectory h
    have hv := (visible_components hp).1
    rw [hsplit] at hv
    obtain ⟨rfl, hmem⟩ := Tree.metadata_leaf (visible_append.mp hv).1 hleaf
    have hne : front ≠ [] := by
      rintro rfl
      cases hleaf
    have hnames (n : Text) (hn : n ∈ front) : Name n :=
      (visible_components hp).2 n (hsplit ▸ List.mem_append_left _ hn)
    refine ⟨_, hmem, (within_iff hp (Tree.mem_keys.mp hmem).1).mpr ⟨more, hmore, ?_⟩⟩
    rw [components_filePathToKey hne hnames, hsplit]

theorem Tree.blocked_nil : t.blocked [] = false := by
  rw [Tree.blocked, List.any_eq_false]
  intro key hkey hwithin
  have hne := (validateKey_ok (Tree.mem_keys.mp hkey).1).1
  rcases keyIsWithinPrefix_iff.mp hwithin with h | ⟨rest, h⟩
  · exact hne h
  · simp at h

theorem inspected_of_ne (hne : p ≠ []) : inspected p = (components p).inits.tail := if_neg hne

theorem mem_inspected (hne : p ≠ []) (h : path ∈ inspected p) : path <+: components p := by
  rw [inspected_of_ne hne] at h
  exact (List.mem_inits _ _).mp (List.mem_of_mem_tail h)

theorem components_mem_inspected (hne : p ≠ []) : components p ∈ inspected p := by
  rw [inspected_of_ne hne]
  obtain ⟨w, ws, hc, -⟩ := components_cons p
  rw [hc]
  simp

theorem inspect_ok (hp : validateKey p false = .ok ()) (hpath : path <+: components p) :
    inspect t.fails t.root p path = .ok () ↔
      t.fails path = false ∧ metadata path t.root ≠ .notDirectory := by
  rw [inspect, symlinkMetadata]
  cases hf : t.fails path with
  | true => simp
  | false =>
    cases hm : metadata path t.root with
    | notFound | notDirectory => simp
    | found node =>
      cases node with
      | dir entries => simp
      | leaf fileType =>
        obtain ⟨more, hsplit⟩ := hpath
        have hv := (visible_components hp).1
        rw [← hsplit] at hv
        obtain ⟨rfl, -⟩ := Tree.metadata_leaf (visible_append.mp hv).1 hm
        simp

theorem checkedPath_ok (hp : validateKey p false = .ok ()) (hne : p ≠ []) :
    (∃ path, checkedPath t.fails t.root p = .ok path) ↔ t.opens p = true := by
  have hblocked := Tree.blocked_iff (t := t) hp
  simp only [checkedPath, hp, Result.ok_bind, bind_ok, Except.ok.injEq, ← inspected_of_ne hne,
    Tree.opens, Bool.and_eq_true, Bool.not_eq_true', List.all_eq_true]
  constructor
  · rintro ⟨path, _, hall, -⟩
    have hall := fun front hf => (inspect_ok hp (mem_inspected hne hf)).mp
      (forM_ok.mp hall front hf)
    refine ⟨?_, fun front hf => (hall front hf).1⟩
    rw [← Bool.not_eq_true, hblocked]
    exact (hall _ (components_mem_inspected hne)).2
  · rintro ⟨hb, hall⟩
    refine ⟨_, (), forM_ok.mpr fun front hf => ?_, rfl⟩
    have hfront := mem_inspected hne hf
    refine (inspect_ok hp hfront).mpr ⟨hall front hf, fun hm => ?_⟩
    -- a file on the way to a longer path is one on the way to the prefix
    rw [← Bool.not_eq_true, hblocked] at hb
    obtain ⟨more, hsplit⟩ := hfront
    rw [← hsplit] at hb
    by_cases hmore : more = []
    · exact hb (by rw [hmore, List.append_nil, hm])
    · exact hb (by rw [metadata_append hmore, hm])

theorem startOf_ok (hp : validateKey p true = .ok ()) (hne : p ≠ []) :
    (∃ path, startOf t.fails t.root p = .ok path) ↔ t.opens p = true := by
  rw [startOf, if_neg hne]
  exact checkedPath_ok (validateKey_of_ne hne ▸ hp) hne

theorem Tree.opens_nil : t.opens [] = !t.fails [] := by
  simp [Tree.opens, Tree.blocked_nil, inspected]

-- One page

theorem finishPage_take (limit : Nat) (keys : List Text) :
    finishPage (keys.take (limit + 1)) limit = finishPage keys limit := by
  have hlength : limit < (keys.take (limit + 1)).length ↔ limit < keys.length := by
    rw [List.length_take]
    omega
  have hlast : (keys.take (limit + 1))[limit - 1]? = keys[limit - 1]? := by
    rw [List.getElem?_take_of_lt (by omega)]
  simp only [finishPage, List.take_take, hlength, hlast, Nat.min_eq_left (Nat.le_succ limit)]

theorem below (hp : validateKey p false = .ok ())
    (hm : metadata (components p) t.root = .found (.dir entries)) :
    entries.Clean (components p) ∧
      ((entries.paths (components p)).map filePathToKey).Perm
        (t.keys.filter (keyIsWithinPrefix · p)) := by
  obtain ⟨hv, hnames⟩ := visible_components hp
  have hclean : entries.Clean (components p) := (clean_metadata t.clean hv hm).2
  refine ⟨hclean, (List.perm_ext_iff_of_nodup (nodup_keys_below hclean hnames)
    (t.nodup_keys.filter _)).mpr fun key => ?_⟩
  rw [List.mem_filter]
  constructor
  · intro h
    obtain ⟨q, hq, rfl⟩ := List.mem_map.mp h
    obtain ⟨hcomponents, hvalid⟩ := key_of_mem_paths hclean hnames hq
    obtain ⟨path, rfl, hfile, -⟩ := (mem_paths hclean).mp hq
    have hne : path ≠ [] := by
      rintro rfl
      cases hfile
    refine ⟨Tree.mem_keys.mpr ⟨hvalid, ?_⟩, (within_iff hvalid hp).mpr ⟨path, hne, hcomponents⟩⟩
    rw [hcomponents, IsFile, metadata_append hne, hm]
    exact hfile
  · rintro ⟨hkey, hwithin⟩
    obtain ⟨hvalid, hfile⟩ := Tree.mem_keys.mp hkey
    obtain ⟨more, hmore, hsplit⟩ := (within_iff hvalid hp).mp hwithin
    refine List.mem_map.mpr ⟨components key, ?_, filePathToKey_components hvalid⟩
    have hvisible := (visible_components hvalid).1
    rw [IsFile, hsplit, metadata_append hmore, hm] at hfile
    rw [hsplit] at hvisible ⊢
    exact (mem_paths hclean).mpr ⟨more, rfl, hfile, (visible_append.mp hvisible).2⟩

theorem walk_listed (hc : entries.Clean start)
    (hp : ((entries.paths start).map filePathToKey).Perm (t.keys.filter (keyIsWithinPrefix · p)))
    (after : Option Text) (limit : Nat) :
    (do
      let smallest ← walk p after (limit + 1) entries start []
      .ok (finishPage (sorted smallest) limit)) =
      Except.ok (finishPage (t.listed p after) limit) := by
  have hwithin (q : List Text) (hq : q ∈ entries.paths start) :
      keyIsWithinPrefix (filePathToKey q) p = true :=
    (List.mem_filter.mp (hp.mem_iff.mp (List.mem_map_of_mem hq))).2
  have hlisted : sorted (((entries.paths start).map filePathToKey).filter
      fun key => !passed after key) = t.listed p after := by
    refine sorted_eq (((hp.filter _).trans ?_).trans (perm_sorted _).symm)
      (Selection.pairwise_sorted _)
    rw [List.filter_filter]
    exact .of_eq (List.filter_congr fun key _ => Bool.and_comm _ _)
  rw [walk_eq hc hwithin, Result.ok_bind, Selection.sorted_foldl, hlisted, finishPage_take]

theorem listed_eq_nil (hp : validateKey p false = .ok ())
    (hm : ∀ entries, metadata (components p) t.root ≠ .found (.dir entries)) (after : Option Text) :
    t.listed p after = [] := by
  have hnone : (t.keys.filter fun key => keyIsWithinPrefix key p && !passed after key) = [] := by
    refine List.filter_eq_nil_iff.mpr fun key hkey h => ?_
    obtain ⟨hvalid, hfile⟩ := Tree.mem_keys.mp hkey
    obtain ⟨more, hmore, hsplit⟩ := (within_iff hvalid hp).mp (Bool.and_eq_true_iff.mp h).1
    rw [IsFile, hsplit, metadata_append hmore] at hfile
    split at hfile
    · rename_i entries hentries
      exact hm entries hentries
    all_goals cases hfile
  rw [Tree.listed, hnone]
  rfl

theorem validateListRequest_ok (hp : validateKey p true = .ok ())
    (hl : limit ≠ 0 ∧ limit ≤ maxListPageSize) (ha : validateCursor p after = .ok ()) :
    validateListRequest p after limit = .ok () := by
  rw [validateListRequest, hp, Result.ensure_pos hl]
  exact ha

theorem listPage_eq (hp : validateKey p true = .ok ())
    (hl : limit ≠ 0 ∧ limit ≤ maxListPageSize) (ha : validateCursor p after = .ok ())
    (hb : t.opens p = true) :
    listPage t.fails t.root p after limit = .ok (finishPage (t.listed p after) limit) := by
  rw [listPage, validateListRequest_ok hp hl ha, Result.ok_bind]
  by_cases hne : p = []
  · subst hne
    rw [Tree.opens_nil, Bool.not_eq_true'] at hb
    rw [startOf, if_pos rfl, Result.ok_bind, symlinkMetadata, hb]
    refine walk_listed t.clean (.of_eq ?_) after limit
    exact (List.filter_eq_self.mpr fun _ _ => rfl).symm
  · obtain ⟨start, hstart⟩ := (startOf_ok hp hne).mpr hb
    rw [hstart, Result.ok_bind]
    rw [validateKey_of_ne hne] at hp
    rw [startOf, if_neg hne, checkedPath, hp, Result.ok_bind] at hstart
    obtain ⟨_, -, hstart⟩ := bind_ok.mp hstart
    cases hstart
    simp only [Tree.opens, Bool.and_eq_true, Bool.not_eq_true', List.all_eq_true] at hb
    rw [symlinkMetadata, hb.2 _ (components_mem_inspected hne)]
    have hnil (hm : ∀ entries, metadata (components p) t.root ≠ .found (.dir entries)) :
        (.ok ⟨[], none⟩ : Except String ListPage) =
          .ok (finishPage (t.listed p after) limit) := by
      rw [listed_eq_nil hp hm, finishPage]
      simp
    cases hm : metadata (components p) t.root with
    | notFound => exact hnil (by simp [hm])
    | notDirectory =>
      rw [(Tree.blocked_iff hp).mpr hm] at hb
      cases hb.1
    | found node =>
      cases node with
      | leaf fileType =>
        obtain ⟨rfl, -⟩ := Tree.metadata_leaf (visible_components hp).1 hm
        exact hnil (by simp [hm])
      | dir entries =>
        obtain ⟨hclean, hperm⟩ := below hp hm
        exact walk_listed hclean hperm after limit

theorem listPage_ok (hp : validateKey p true = .ok ())
    (h : listPage t.fails t.root p after limit = .ok page) : t.opens p = true := by
  obtain ⟨_, -, h⟩ := bind_ok.mp h
  obtain ⟨start, hstart, h⟩ := bind_ok.mp h
  by_cases hne : p = []
  · subst hne
    cases hstart
    rw [Tree.opens_nil]
    cases hf : t.fails [] with
    | false => rfl
    | true =>
      rw [symlinkMetadata, hf] at h
      cases h
  · exact (startOf_ok hp hne).mp ⟨start, hstart⟩

theorem finishPage_cases (hl : limit ≠ 0) (keys : List Text) :
    finishPage keys limit = ⟨keys, none⟩ ∧ keys.length ≤ limit ∨
      ∃ front c back, keys = front ++ c :: back ∧ front.length + 1 = limit ∧
        finishPage keys limit = ⟨front ++ [c], some c⟩ := by
  by_cases hlen : limit < keys.length
  · right
    obtain ⟨n, rfl⟩ := Nat.exists_eq_succ_of_ne_zero hl
    have hn : n < keys.length := by omega
    refine ⟨keys.take n, keys[n], keys.drop (n + 1), ?_, ?_, ?_⟩
    · rw [List.cons_getElem_drop_succ, List.take_append_drop]
    · rw [List.length_take, Nat.min_eq_left hn.le]
    · rw [finishPage, if_pos hlen, Nat.succ_sub_one, List.getElem?_eq_getElem hn,
        List.take_add_one, List.getElem?_eq_getElem hn, Option.toList_some]
  · left
    rw [finishPage, if_neg hlen, List.take_of_length_le (by omega)]
    exact ⟨rfl, by omega⟩

theorem passed_some : passed (some c) key = false ↔ c < key := by
  simp [passed]

theorem Tree.mem_listed : key ∈ t.listed p after ↔
    key ∈ t.keys ∧ keyIsWithinPrefix key p = true ∧ passed after key = false := by
  simp [Tree.listed]

theorem Tree.listed_lt (t : Tree) (p : Text) (after : Option Text) :
    (t.listed p after).Pairwise (· < ·) :=
  pairwise_lt_sorted (t.nodup_keys.filter _)

theorem passed_of_lt (hc : passed after c = false) (h : c < key) : passed after key = false := by
  cases after with
  | none => rfl
  | some a => exact passed_some.mpr ((passed_some.mp hc).trans h)

section
variable {front back : List Text} {c : Text}

theorem Tree.mem_back (h : t.listed p after = front ++ c :: back) :
    key ∈ back ↔ key ∈ t.keys ∧ keyIsWithinPrefix key p = true ∧ c < key := by
  have hsorted := t.listed_lt p after
  rw [h] at hsorted
  obtain ⟨-, hback, hfront⟩ := List.pairwise_append.mp hsorted
  have hc := (Tree.mem_listed.mp (h ▸ List.mem_append_right front List.mem_cons_self)).2.2
  constructor
  · intro hk
    obtain ⟨hkey, hwithin, -⟩ := Tree.mem_listed.mp
      (h ▸ List.mem_append_right front (List.mem_cons_of_mem c hk))
    exact ⟨hkey, hwithin, (List.pairwise_cons.mp hback).1 key hk⟩
  · rintro ⟨hkey, hwithin, hlt⟩
    have hlisted := Tree.mem_listed.mpr ⟨hkey, hwithin, passed_of_lt hc hlt⟩
    rw [h, List.mem_append, List.mem_cons] at hlisted
    rcases hlisted with hf | rfl | hk
    · exact absurd hlt (hfront key hf c List.mem_cons_self).asymm
    · exact absurd hlt (lt_irrefl key)
    · exact hk

theorem Tree.listed_back (h : t.listed p after = front ++ c :: back) :
    t.listed p (some c) = back := by
  have hback : back.Pairwise (· < ·) := by
    have hsorted := t.listed_lt p after
    rw [h] at hsorted
    exact (List.pairwise_cons.mp (List.pairwise_append.mp hsorted).2.1).2
  refine sorted_eq ?_ (hback.imp le_of_lt)
  refine (List.perm_ext_iff_of_nodup (t.nodup_keys.filter _) (hback.imp ne_of_lt)).mpr fun key => ?_
  rw [Tree.mem_back h]
  simp [passed]

theorem Tree.front_le (h : t.listed p after = front ++ c :: back) (hk : key ∈ front ++ [c]) :
    key ∈ t.listed p after ∧ key ≤ c := by
  have hsorted := t.listed_lt p after
  rw [h] at hsorted ⊢
  rcases List.mem_append.mp hk with hf | hc
  · exact ⟨List.mem_append_left _ hf,
      ((List.pairwise_append.mp hsorted).2.2 key hf c List.mem_cons_self).le⟩
  · cases List.mem_singleton.mp hc
    exact ⟨by simp, le_rfl⟩

theorem Tree.mem_front (h : t.listed p after = front ++ c :: back) (hk : key ∈ t.listed p after)
    (hle : key ≤ c) : key ∈ front ++ [c] := by
  have hback : key ∉ back := fun hb => ((Tree.mem_back h).mp hb).2.2.not_ge hle
  rw [h, List.mem_append, List.mem_cons] at hk
  rw [List.mem_append, List.mem_singleton]
  tauto

theorem Tree.cursor_ok (h : t.listed p after = front ++ c :: back) :
    validateCursor p (some c) = .ok () := by
  obtain ⟨hkey, hwithin, -⟩ := Tree.mem_listed.mp (Tree.front_le h (by simp : c ∈ front ++ [c])).1
  rw [validateCursor, (Tree.mem_keys.mp hkey).1]
  refine ensure_ok.mpr ?_
  rw [cursorIsWithinPrefix, hwithin, Bool.or_true]

end

-- Iterations

/-- An iteration over pages, each of the tree as it then is: the keys, and whether the page
without a cursor has been reached. -/
def iterate (p : Text) (limit : Nat) : Option Text → List Tree → Except String (List Text × Bool)
  | _, [] => .ok ([], false)
  | after, t :: ts => do
    let page ← listPage t.fails t.root p after limit
    match page.next with
    | none => .ok (page.keys, true)
    | some next => (iterate p limit (some next) ts).map fun r => (page.keys ++ r.1, r.2)

structure Covers (p : Text) (after : Option Text) (ts : List Tree) (r : List Text × Bool) :
    Prop where
  increasing : r.1.Pairwise (· < ·)
  within : ∀ key ∈ r.1, keyIsWithinPrefix key p = true
  behind : ∀ key ∈ r.1, passed after key = false
  present : ∀ key ∈ r.1, ∃ t ∈ ts, key ∈ t.keys
  complete : r.2 = true → ∀ key, keyIsWithinPrefix key p = true → passed after key = false →
    (∀ t ∈ ts, key ∈ t.keys) → key ∈ r.1

theorem Covers.last (t : Tree) (ts : List Tree) (p : Text) (after : Option Text) :
    Covers p after (t :: ts) (t.listed p after, true) where
  increasing := t.listed_lt p after
  within _ hk := (Tree.mem_listed.mp hk).2.1
  behind _ hk := (Tree.mem_listed.mp hk).2.2
  present _ hk := ⟨t, List.mem_cons_self, (Tree.mem_listed.mp hk).1⟩
  complete _ _ hw hp hall := Tree.mem_listed.mpr ⟨hall t List.mem_cons_self, hw, hp⟩

theorem Covers.page (h : t.listed p after = front ++ c :: back) (hr : Covers p (some c) ts r) :
    Covers p after (t :: ts) (front ++ [c] ++ r.1, r.2) := by
  have hpage (key : Text) (hk : key ∈ front ++ [c]) :=
    Tree.mem_listed.mp (Tree.front_le h hk).1
  have hc := (hpage c (by simp)).2.2
  have hbehind (key : Text) (hk : key ∈ r.1) : c < key := passed_some.mp (hr.behind key hk)
  constructor
  · refine List.pairwise_append.mpr ⟨?_, hr.increasing, fun a ha b hb =>
      (Tree.front_le h ha).2.trans_lt (hbehind b hb)⟩
    have hsorted := t.listed_lt p after
    rw [h, List.append_cons] at hsorted
    exact (List.pairwise_append.mp hsorted).1
  · exact List.forall_mem_append.mpr ⟨fun key hk => (hpage key hk).2.1, hr.within⟩
  · exact List.forall_mem_append.mpr ⟨fun key hk => (hpage key hk).2.2,
      fun key hk => passed_of_lt hc (hbehind key hk)⟩
  · refine List.forall_mem_append.mpr ⟨fun key hk => ⟨t, List.mem_cons_self, (hpage key hk).1⟩,
      fun key hk => ?_⟩
    obtain ⟨u, hu, hkey⟩ := hr.present key hk
    exact ⟨u, List.mem_cons_of_mem t hu, hkey⟩
  · intro hdone key hw hp hall
    obtain ⟨hkey, hrest⟩ := List.forall_mem_cons.mp hall
    rcases le_or_gt key c with hle | hlt
    · exact List.mem_append_left _
        (Tree.mem_front h (Tree.mem_listed.mpr ⟨hkey, hw, hp⟩) hle)
    · exact List.mem_append_right _ (hr.complete hdone key hw (passed_some.mpr hlt) hrest)

section
variable (hp : validateKey p true = .ok ()) (hl : limit ≠ 0 ∧ limit ≤ maxListPageSize)
include hp hl

theorem iterate_cons (ha : validateCursor p after = .ok ()) (hb : t.opens p = true) :
    (∀ ts, iterate p limit after (t :: ts) = .ok (t.listed p after, true)) ∨
      ∃ front c back, t.listed p after = front ++ c :: back ∧
        ∀ ts, iterate p limit after (t :: ts) =
          (iterate p limit (some c) ts).map fun r => (front ++ [c] ++ r.1, r.2) := by
  rcases finishPage_cases hl.1 (t.listed p after) with ⟨hpage, -⟩ | ⟨front, c, back, h, -, hpage⟩
  · left
    intro ts
    rw [iterate, listPage_eq hp hl ha hb, Result.ok_bind, hpage]
  · right
    refine ⟨front, c, back, h, fun ts => ?_⟩
    rw [iterate, listPage_eq hp hl ha hb, Result.ok_bind, hpage]

theorem iterate_covers (ha : validateCursor p after = .ok ())
    (hb : ∀ t ∈ ts, t.opens p = true) :
    ∃ r, iterate p limit after ts = .ok r ∧ Covers p after ts r := by
  induction ts generalizing after with
  | nil =>
    exact ⟨([], false), rfl, .nil, fun _ h => (nomatch h), fun _ h => (nomatch h),
      fun _ h => (nomatch h), fun h => (nomatch h)⟩
  | cons t ts ih =>
    obtain ⟨hbt, hbts⟩ := List.forall_mem_cons.mp hb
    rcases iterate_cons hp hl ha hbt with hlast | ⟨front, c, back, h, hmore⟩
    · exact ⟨_, hlast ts, .last t ts p after⟩
    · obtain ⟨r, hr, hcovers⟩ := ih (Tree.cursor_ok h) hbts
      exact ⟨_, by rw [hmore, hr]; rfl, hcovers.page h⟩

theorem iterate_static (ha : validateCursor p after = .ok ()) (hb : t.opens p = true) :
    ∃ n, iterate p limit after (List.replicate n t) = .ok (t.listed p after, true) := by
  induction hlen : (t.listed p after).length using Nat.strongRecOn generalizing after with
  | ind len ih =>
    rcases iterate_cons hp hl ha hb with hlast | ⟨front, c, back, h, hmore⟩
    · exact ⟨1, hlast []⟩
    · have hback := Tree.listed_back h
      have hshort : back.length < len := by
        rw [← hlen, h, List.length_append, List.length_cons]
        omega
      obtain ⟨n, hn⟩ := ih back.length hshort (Tree.cursor_ok h) (by rw [hback])
      refine ⟨n + 1, ?_⟩
      rw [List.replicate_succ, hmore, hn, hback, h]
      simp [Except.map]

end

-- Every key

theorem foldlM_checkKey {keys : List Text}
    (hk : ∀ key ∈ keys, key ∈ t.keys ∧ keyIsWithinPrefix key p = true)
    (ha : ∀ key ∈ keys, passed after key = false) (hs : keys.Pairwise (· < ·)) :
    ∃ prior, keys.foldlM (checkKey p) after = .ok prior := by
  induction keys generalizing after with
  | nil => exact ⟨after, rfl⟩
  | cons key keys ih =>
    obtain ⟨⟨hmem, hwithin⟩, hkeys⟩ := List.forall_mem_cons.mp hk
    obtain ⟨hlt, hs⟩ := List.pairwise_cons.mp hs
    have hcheck : checkKey p after key = .ok (some key) := by
      rw [checkKey, (Tree.mem_keys.mp hmem).1, Result.ensure_pos hwithin,
        Result.ensure_pos (ha key List.mem_cons_self)]
      rfl
    rw [List.foldlM_cons, hcheck, Result.ok_bind]
    exact ih hkeys (fun k hmem => passed_some.mpr (hlt k hmem)) hs

theorem checkPage_ok (hp : page.keys <+: t.listed p after)
    (hlen : page.keys.length ≤ maxListPageSize)
    (hroom : keys.length + page.keys.length ≤ maxListKeys)
    (hnext : ∀ next, page.next = some next → page.keys.getLast? = some next) :
    checkPage p keys after page = .ok () := by
  have hmem (key : Text) (hk : key ∈ page.keys) := Tree.mem_listed.mp (hp.subset hk)
  obtain ⟨prior, hfold⟩ := foldlM_checkKey (fun key hk => ⟨(hmem key hk).1, (hmem key hk).2.1⟩)
    (fun key hk => (hmem key hk).2.2) ((t.listed_lt p after).sublist hp.sublist)
  rw [checkPage, Result.ensure_pos hlen, Result.ok_bind, hfold, Result.ok_bind,
    Result.ensure_pos hroom, Result.ok_bind]
  cases hn : page.next with
  | none => rfl
  | some next =>
    have hlast := hnext next hn
    have hkey := hmem next (List.mem_of_getLast? hlast)
    rw [checkNext, (Tree.mem_keys.mp hkey.1).1]
    exact ensure_ok.mpr hlast

section
variable {page : Nat → Option Text → Except String ListPage} {answer : ListPage}

theorem listAllLoop_last (hpage : page n after = .ok answer)
    (hc : checkPage p keys after answer = .ok ()) (hn : answer.next = none) :
    listAllLoop p page n keys after = .ok (keys ++ answer.keys) := by
  rw [listAllLoop, hpage]
  dsimp only
  split
  · rename_i he
    rw [hc] at he
    cases he
  · split
    · rfl
    · rename_i hs
      rw [hn] at hs
      cases hs

theorem listAllLoop_next (hpage : page n after = .ok answer)
    (hc : checkPage p keys after answer = .ok ()) (hn : answer.next = some next) :
    listAllLoop p page n keys after =
      listAllLoop p page (n + 1) (keys ++ answer.keys) (some next) := by
  rw [listAllLoop, hpage]
  dsimp only
  split
  · rename_i he
    rw [hc] at he
    cases he
  · split
    · rename_i hs
      rw [hn] at hs
      cases hs
    · rename_i hs
      rw [hn] at hs
      cases hs
      rfl

end

theorem listAllLoop_eq (hp : validateKey p true = .ok ()) (ha : validateCursor p after = .ok ())
    (hb : t.opens p = true)
    (hroom : keys.length + (t.listed p after).length ≤ maxListKeys) (n : Nat) :
    listAllLoop p (fun _ after => listPage t.fails t.root p after maxListPageSize) n keys after =
      .ok (keys ++ t.listed p after) := by
  have hl : maxListPageSize ≠ 0 ∧ maxListPageSize ≤ maxListPageSize := ⟨by decide, le_rfl⟩
  induction hlen : (t.listed p after).length using Nat.strongRecOn generalizing after keys n with
  | ind len ih =>
    have hpage := listPage_eq hp hl ha hb
    rcases finishPage_cases hl.1 (t.listed p after) with
      ⟨hfinish, hle⟩ | ⟨front, c, back, h, hlimit, hfinish⟩
    · rw [hfinish] at hpage
      have hcheck : checkPage p keys after ⟨t.listed p after, none⟩ = .ok () :=
        checkPage_ok List.prefix_rfl hle hroom (by simp)
      exact listAllLoop_last hpage hcheck rfl
    · rw [hfinish] at hpage
      have hback := Tree.listed_back h
      have hsplit : t.listed p after = (front ++ [c]) ++ back := by rw [h, List.append_cons]
      have hfront : (front ++ [c]).length = maxListPageSize := by simpa using hlimit
      rw [hsplit, List.length_append] at hroom hlen
      have hcheck : checkPage p keys after ⟨front ++ [c], some c⟩ = .ok () :=
        checkPage_ok (hsplit ▸ List.prefix_append _ _) hfront.le (by dsimp only; omega) (by simp)
      have hrest :
          (keys ++ (front ++ [c])).length + (t.listed p (some c)).length ≤ maxListKeys := by
        rw [hback, List.length_append]
        omega
      have hpos : 0 < maxListPageSize := by decide
      rw [listAllLoop_next hpage hcheck rfl,
        ih back.length (by omega) (Tree.cursor_ok h) hrest (n + 1) (by rw [hback]), hback, hsplit,
        List.append_assoc]

/-- Listing is complete just when no object lies on the path of the prefix and the system inspects
all of it. -/
theorem listing_complete (hp : validateKey p true = .ok ())
    (hl : limit ≠ 0 ∧ limit ≤ maxListPageSize) (trees : Set Tree) :
    ((∀ ts, (∀ t ∈ ts, t ∈ trees) → ∃ r, iterate p limit none ts = .ok r ∧ Covers p none ts r) ∧
      ∀ t ∈ trees,
        (∃ n, iterate p limit none (List.replicate n t) = .ok (t.listed p none, true)) ∧
        ((t.listed p none).length ≤ maxListKeys →
          listAllBounded p (fun _ after => listPage t.fails t.root p after maxListPageSize) =
            .ok (t.listed p none))) ↔
      ∀ t ∈ trees, t.opens p = true := by
  constructor
  · rintro ⟨hiterate, -⟩ t ht
    obtain ⟨r, hr, -⟩ := hiterate [t] (by simpa using ht)
    obtain ⟨page, hpage, -⟩ := bind_ok.mp hr
    exact listPage_ok hp hpage
  · intro hb
    refine ⟨fun ts hts => iterate_covers hp hl rfl fun t ht => hb t (hts t ht), fun t ht => ?_⟩
    refine ⟨iterate_static hp hl rfl (hb t ht), fun hbound => ?_⟩
    exact listAllLoop_eq hp rfl (hb t ht) (by simpa using hbound) 0

/-- A store with one object, `a`. -/
def oneObject : Tree :=
  ⟨.entry ['a'] .file .done, fun _ => false, rfl, ⟨by decide, by decide⟩,
    fun _ => ⟨rfl, rfl⟩, trivial⟩

/-- The empty listing below `a/b` fails. -/
theorem listing_below_object_fails :
    oneObject.listed "a/b".toList none = [] ∧
      iterate "a/b".toList 1 none [oneObject] = .error "inspect object path a/b" ∧
      listAllBounded "a/b".toList (fun _ after =>
        listPage oneObject.fails oneObject.root "a/b".toList after maxListPageSize) =
          .error "inspect object path a/b" := by
  refine ⟨by decide, rfl, ?_⟩
  rw [listAllBounded, listAllLoop]
  rfl

/-- An object `a`, and the given ones below `b`. -/
def shelf (entries : Directory) (hc : entries.Clean [['b']]) : Tree where
  root := .entry ['a'] .file (.dir ['b'] entries .done)
  fails _ := false
  clean := ⟨rfl, ⟨by decide, by decide⟩, fun _ => ⟨rfl, rfl⟩, rfl, ⟨by decide, by decide⟩,
    fun _ => hc, trivial⟩

def twoBelow : Tree := shelf (.entry ['z'] .file (.entry ['x'] .file .done))
  ⟨rfl, ⟨by decide, by decide⟩, fun _ => ⟨rfl, rfl⟩,
    rfl, ⟨by decide, by decide⟩, fun _ => ⟨rfl, rfl⟩, trivial⟩

def threeBelow : Tree := shelf (.entry ['y'] .file (.entry ['z'] .file (.entry ['x'] .file .done)))
  ⟨rfl, ⟨by decide, by decide⟩, fun _ => ⟨rfl, rfl⟩, rfl, ⟨by decide, by decide⟩,
    fun _ => ⟨rfl, rfl⟩, rfl, ⟨by decide, by decide⟩, fun _ => ⟨rfl, rfl⟩, trivial⟩

/-- The object `b/y` comes and goes between the pages. -/
theorem listing_complete_shelf :
    (∃ r, iterate ['b'] 1 none [twoBelow, threeBelow, twoBelow] = .ok r ∧
      Covers ['b'] none [twoBelow, threeBelow, twoBelow] r) ∧
      listAllBounded ['b'] (fun _ after =>
        listPage threeBelow.fails threeBelow.root ['b'] after maxListPageSize) =
          .ok ["b/x".toList, "b/y".toList, "b/z".toList] := by
  have h := (listing_complete (p := ['b']) (by decide) ⟨Nat.one_ne_zero, by decide⟩
    {twoBelow, threeBelow}).mpr (by rintro t (rfl | rfl) <;> decide)
  refine ⟨h.1 _ (by simp), ?_⟩
  have hall := (h.2 threeBelow (by simp)).2 (by decide)
  have hlist : threeBelow.listed ['b'] none = ["b/x".toList, "b/y".toList, "b/z".toList] := by
    decide
  rwa [hlist] at hall

end Varve.Remote
