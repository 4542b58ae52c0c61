import SearchEvery.Dedup
import Mathlib.Tactic

/-!
# What duplicate detection computes

The groups of `dedup::detect` are the classes of two relations on the entries
of its path list: the same hash of the whole contents among the regular files,
and the same final component among the paths which have one.  The text of a
hash determines the hash, every class has one group, and a group lists the
entries of its class in the order of the list.
-/

namespace SearchEvery

/-- The hash of the whole contents of a regular file. -/
def DedupEnv.digestOf (env : DedupEnv) (disk : Disk) (path : String) :
    Option (List UInt8) :=
  match disk path with
  | .file node =>
      some (env.digest.finalize (env.digest.update env.digest.new node.content))
  | _ => none

/-- The entries which have the same key as one of them, when there are at
least two. -/
def IsClass {κ : Type} [DecidableEq κ] (key : String → Option κ)
    (paths files : List String) : Prop :=
  1 < files.length ∧ ∃ path ∈ paths, (key path).isSome = true ∧
    files = paths.filter fun other => key other = key path

/-- The specification of a successful call. -/
structure DetectSpec (env : DedupEnv) (disk : Disk) (paths : List String)
    (groups : List DupGroup) : Prop where
  hash : ∀ files, (∃ group ∈ groups, group.kind = .hash ∧ group.files = files) ↔
    IsClass (env.digestOf disk) paths files
  name : ∀ files, (∃ group ∈ groups, group.kind = .name ∧ group.files = files) ↔
    IsClass env.platform.fileName paths files
  key : ∀ group ∈ groups, ∀ path ∈ group.files,
    env.keyOf disk group.kind path = some group.key
  distinct : (groups.map fun group => (group.kind, group.key)).Nodup

/-! ## The text of a hash -/

theorem hexDigits_injective
    {a b : UInt8}
    (hhigh : Nat.digitChar (a.toNat / 16) = Nat.digitChar (b.toNat / 16))
    (hlow : Nat.digitChar (a.toNat % 16) = Nat.digitChar (b.toNat % 16)) :
    a = b := by
  have hdigit : ∀ m < 16, ∀ n < 16,
      Nat.digitChar m = Nat.digitChar n → m = n := by decide
  have ha := a.toNat_lt
  have hb := b.toNat_lt
  have hdiv := hdigit _ (by omega) _ (by omega) hhigh
  have hmod := hdigit _ (by omega) _ (by omega) hlow
  apply UInt8.toNat_inj.mp
  omega

theorem hexEncode_injective : Function.Injective hexEncode := by
  intro a b hsame
  have hchars := congrArg String.toList hsame
  simp only [hexEncode, String.toList_ofList] at hchars
  clear hsame
  induction a generalizing b with
  | nil =>
      cases b with
      | nil => rfl
      | cons d b => simp at hchars
  | cons c a ih =>
      cases b with
      | nil => simp at hchars
      | cons d b =>
          simp only [List.flatMap_cons, List.cons_append, List.nil_append,
            List.cons.injEq] at hchars
          rw [hexDigits_injective hchars.1 hchars.2.1, ih hchars.2.2]

theorem DedupEnv.hashKey_eq_map
    (env : DedupEnv) (disk : Disk) (path : String) :
    env.hashKey disk path = (env.digestOf disk path).map hexEncode := by
  unfold DedupEnv.hashKey DedupEnv.digestOf
  cases disk path with
  | absent => rfl
  | directory => rfl
  | file node => rfl

theorem DedupEnv.hashKey_eq_iff
    (env : DedupEnv) (disk : Disk) (path other : String) :
    env.hashKey disk other = env.hashKey disk path ↔
      env.digestOf disk other = env.digestOf disk path := by
  rw [env.hashKey_eq_map, env.hashKey_eq_map]
  exact (Option.map_injective hexEncode_injective).eq_iff

/-! ## Groups and classes -/

theorem isClass_congr
    {κ κ' : Type} [DecidableEq κ] [DecidableEq κ']
    {key : String → Option κ} {key' : String → Option κ'}
    (hsome : ∀ path, (key path).isSome = (key' path).isSome)
    (hsame : ∀ path other,
      key other = key path ↔ key' other = key' path)
    (paths files : List String) :
    IsClass key paths files ↔ IsClass key' paths files := by
  simp only [IsClass, hsome, hsame]

theorem exists_values_iff_isClass
    {κ : Type} [DecidableEq κ] (key : String → Option κ)
    (paths files : List String) :
    (1 < files.length ∧ ∃ k, files = EntryMap.valuesOf key paths k) ↔
      IsClass key paths files := by
  unfold IsClass EntryMap.valuesOf
  apply and_congr_right
  intro hlength
  constructor
  · rintro ⟨k, rfl⟩
    obtain ⟨path, hpath⟩ := List.exists_mem_of_length_pos
      (Nat.zero_lt_of_lt hlength)
    obtain ⟨hmem, hkey⟩ := List.mem_filter.mp hpath
    rw [decide_eq_true_eq] at hkey
    exact ⟨path, hmem, by simp [hkey], by simp [hkey]⟩
  · rintro ⟨path, _, hkey, rfl⟩
    obtain ⟨k, hk⟩ := Option.isSome_iff_exists.mp hkey
    exact ⟨k, by simp [hk]⟩

theorem exists_group_iff
    {env : DedupEnv} {call : DetectCall} {disk : Disk} {paths : List String}
    {groups : List DupGroup} (hdetect : detect env call disk paths = .ok groups)
    (kind : DupKind) (files : List String) :
    (∃ group ∈ groups, group.kind = kind ∧ group.files = files) ↔
      IsClass (env.keyOf disk kind) paths files := by
  rw [← exists_values_iff_isClass]
  constructor
  · rintro ⟨group, hmem, rfl, rfl⟩
    have hgroup := (mem_detect hdetect group).mp hmem
    exact ⟨hgroup.1, group.key, hgroup.2⟩
  · rintro ⟨hlength, k, hfiles⟩
    exact ⟨⟨kind, k, files⟩,
      (mem_detect hdetect _).mpr ⟨hlength, hfiles⟩, rfl, rfl⟩

theorem mem_group_key
    {env : DedupEnv} {disk : Disk} {paths : List String} {group : DupGroup}
    (hgroup : IsDupGroup env disk paths group) {path : String}
    (hpath : path ∈ group.files) :
    env.keyOf disk group.kind path = some group.key := by
  rw [hgroup.2, EntryMap.valuesOf, List.mem_filter] at hpath
  simpa using hpath.2

/-! ## One group for a class -/

theorem dupGroupsOf_keys_nodup
    (iter : EntryMap.IterOrder String String)
    (map : EntryMap.Map String String) (kind : DupKind) :
    ((dupGroupsOf kind (iter.intoIter map)).map DupGroup.key).Nodup := by
  unfold dupGroupsOf
  rw [List.map_map]
  have hkeys : ((iter.intoIter map).map Sigma.fst).Nodup :=
    ((iter.perm map.entries).map _).nodup_iff.mpr map.nodupKeys
  exact hkeys.sublist (List.filter_sublist.map _)

theorem dupGroupsOf_kind
    {kind : DupKind} {entries : List (Sigma fun _ : String => List String)}
    {group : DupGroup} (hmem : group ∈ dupGroupsOf kind entries) :
    group.kind = kind := by
  obtain ⟨entry, _, rfl⟩ := List.mem_map.mp hmem
  rfl

theorem nodup_kind_key
    {kind : DupKind} {groups : List DupGroup}
    (hkind : ∀ group ∈ groups, group.kind = kind)
    (hkeys : (groups.map DupGroup.key).Nodup) :
    (groups.map fun group => (group.kind, group.key)).Nodup := by
  have hpair : (groups.map fun group => (group.kind, group.key)) =
      (groups.map DupGroup.key).map (Prod.mk kind) := by
    rw [List.map_map]
    apply List.map_congr_left
    intro group hmem
    rw [hkind group hmem]
    rfl
  rw [hpair]
  exact hkeys.map (Prod.mk_right_injective kind)

theorem detect_keys_nodup
    {env : DedupEnv} {call : DetectCall} {disk : Disk} {paths : List String}
    {groups : List DupGroup}
    (hdetect : detect env call disk paths = .ok groups) :
    (groups.map fun group => (group.kind, group.key)).Nodup := by
  unfold detect at hdetect
  rw [hashFold_eq_ok env call (readable_of_detect hdetect)] at hdetect
  simp only [bind, Except.bind, pure, Except.pure, Except.ok.injEq] at hdetect
  subst hdetect
  rw [List.map_append, List.nodup_append]
  refine ⟨?_, ?_, ?_⟩
  · exact nodup_kind_key (fun _ hmem => dupGroupsOf_kind hmem)
      (dupGroupsOf_keys_nodup _ _ _)
  · exact nodup_kind_key (fun _ hmem => dupGroupsOf_kind hmem)
      (dupGroupsOf_keys_nodup _ _ _)
  · intro first hfirst second hsecond heq
    obtain ⟨hashed, hhashed, rfl⟩ := List.mem_map.mp hfirst
    obtain ⟨named, hnamed, rfl⟩ := List.mem_map.mp hsecond
    have hkinds := congrArg Prod.fst heq
    simp only [dupGroupsOf_kind hhashed, dupGroupsOf_kind hnamed] at hkinds
    contradiction

/-- A call fails exactly when some listed regular file cannot be read, and
otherwise meets the specification, whatever the order of the two maps and the
sizes of the reads. -/
theorem detect_meets_spec
    (env : DedupEnv) (call : DetectCall) (disk : Disk) (paths : List String) :
    ((∃ error, detect env call disk paths = .error error) ↔
      ∃ path ∈ paths, Unreadable disk path) ∧
    ((¬ ∃ path ∈ paths, Unreadable disk path) →
      ∃ groups, detect env call disk paths = .ok groups ∧
        DetectSpec env disk paths groups) := by
  have hok (hreadable : ¬ ∃ path ∈ paths, Unreadable disk path) :
      ∃ groups, detect env call disk paths = .ok groups := by
    push Not at hreadable
    obtain ⟨groups, hdetect, _⟩ := detect_ok env call hreadable
    exact ⟨groups, hdetect⟩
  refine ⟨⟨?_, detect_error env call⟩, ?_⟩
  · rintro ⟨error, herror⟩
    by_contra hreadable
    obtain ⟨groups, hdetect⟩ := hok hreadable
    rw [herror] at hdetect
    contradiction
  · intro hreadable
    obtain ⟨groups, hdetect⟩ := hok hreadable
    refine ⟨groups, hdetect, ?_, ?_, ?_, detect_keys_nodup hdetect⟩
    · intro files
      rw [exists_group_iff hdetect]
      apply isClass_congr
      · intro path
        rw [DedupEnv.keyOf, env.hashKey_eq_map, Option.isSome_map]
      · exact env.hashKey_eq_iff disk
    · exact exists_group_iff hdetect .name
    · intro group hmem path hpath
      exact mem_group_key ((mem_detect hdetect group).mp hmem) hpath

end SearchEvery
