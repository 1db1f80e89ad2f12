import DripOS.Fs.Echfs.Directory
import DripOS.Fs.Echfs.Table

/-!
# The cache of directory entries

`echfs_path_resolve` keeps the entry that a path led to under the number of the node, and
`echfs_write_dir_entry` drops the overwritten entry.  It drops only one element of the hash map, and
not the first one of a bucket.

`Echfs.resolve_current` : the returned entries are those on the device, in every run in which an
overwritten entry is cached at most once, not as the first of its bucket, and no write changes where
another cached path leads.  `Echfs.resolve_stale` shows what happens otherwise.
-/

namespace DripOS

open Option

namespace Echfs

variable {fs fs' : Echfs} {pathOf : ℕ → List UInt8}

/-- Different entries of the main directory lie apart. -/
theorem entryOffset_disjoint {k n : ℕ} (hk : k < 2 ^ 56) (hn : n < 2 ^ 56) (hkn : k ≠ n) :
    fs.entryOffset k + sizeofDirEntry ≤ fs.entryOffset n ∨
    fs.entryOffset n + sizeofDirEntry ≤ fs.entryOffset k := by
  unfold entryOffset sizeofDirEntry
  generalize fs.mainDirBlock * fs.blockSize = p
  omega

theorem disk_writeDirEntry (n : ℕ) (data : DirEntry) : (fs.writeDirEntry n data).disk =
    fs.disk.patch (fs.entryOffset n) sizeofDirEntry data.raw := rfl

/-- Writing one entry does not change another one. -/
theorem readDirEntry_writeDirEntry {k n : ℕ} (hk : k < 2 ^ 56) (hn : n < 2 ^ 56) (hkn : k ≠ n)
    (data : DirEntry) : (fs.writeDirEntry n data).readDirEntry k = fs.readDirEntry k := by
  have hoff : (fs.writeDirEntry n data).entryOffset k = fs.entryOffset k := rfl
  unfold readDirEntry
  rw [hoff, disk_writeDirEntry]
  congr 1
  funext i
  unfold Bytes.slice
  split_ifs with hi
  · rcases @entryOffset_disjoint fs _ _ hk hn hkn with h | h
    · exact Bytes.patch_of_lt (by omega)
    · exact Bytes.patch_of_le (by omega)
  · rfl

/-- A walk along a path does not use the cache. -/
theorem resolveUncached_dirCache (fs : Echfs) (m : Hashmap DirEntry) : ∀ path : List UInt8,
    ({ fs with cachedDirEntries := m } : Echfs).resolveUncached path = fs.resolveUncached path :=
  resolveUncached_congr (readDirEntry_congr rfl rfl rfl)

/-! ### Runs -/

/-- A call of `echfs_path_resolve` or `echfs_write_dir_entry`. -/
inductive DirOp where
  | resolve (unid : ℕ)
  | write (entry : ℕ) (data : DirEntry)

/-- What a write must not do: the overwritten entry is cached at most once, and not as the first of
its bucket, and every other cached path leads to its entry as before, with `data` in the place of
the entry `n`. -/
structure KeepsCache (pathOf : ℕ → List UInt8) (fs : Echfs) (n : ℕ) (data : DirEntry) :
    Prop where
  lt : n < 2 ^ 56
  single : ∀ k k' e e', fs.cachedDirEntries.lookup k = some e →
    fs.cachedDirEntries.lookup k' = some e' → e.entryNumber = n → e'.entryNumber = n → k = k'
  notFirst : ∀ k e, fs.cachedDirEntries.lookup k = some e → e.entryNumber = n →
    ∀ a ∈ (fs.cachedDirEntries.buckets (getBucketFromHash k)).head?, a.key ≠ k
  others : ∀ k e, fs.cachedDirEntries.lookup k = some e → e.entryNumber ≠ n →
    ∃ e' c, (fs.writeDirEntry n data).resolveUncached (pathOf k) = .ok ⟨some e', c⟩ ∧
      e'.entryNumber = e.entryNumber

/-- One call; `pathOf` gives the path of a node, and a write keeps to `KeepsCache`. -/
inductive DirStep (pathOf : ℕ → List UInt8) (fs : Echfs) : DirOp → Echfs → Prop
  | resolve {unid : ℕ} {r : Resolved} {fs' : Echfs} : unid ≠ 0 →
      fs.pathResolve (pathOf unid) unid = .ok (r, fs') → DirStep pathOf fs (.resolve unid) fs'
  | write {n : ℕ} {data : DirEntry} : KeepsCache pathOf fs n data →
      DirStep pathOf fs (.write n data) (fs.writeDirEntry n data)

/-- Every cached entry is the one that its path leads to. -/
structure CacheCurrent (pathOf : ℕ → List UInt8) (fs : Echfs) : Prop where
  plain : fs.cachedDirEntries.Plain
  current : ∀ k e, fs.cachedDirEntries.lookup k = some e →
    fs.resolveUncached (pathOf k) = .ok ⟨some e, 0⟩

theorem cacheCurrent_init (h : fs.cachedDirEntries = .init) : CacheCurrent pathOf fs := by
  refine ⟨h ▸ Hashmap.plain_init, fun k e he => ?_⟩
  rw [h] at he
  cases he

/-- A lookup returns the entry on the device with its number. -/
theorem resolveUncached_entry {path : List UInt8} {e : DirEntry} {c : ℕ}
    (h : fs.resolveUncached path = .ok ⟨some e, c⟩) :
    c = 0 ∧ e.entryNumber < 2 ^ 56 ∧ e = ⟨(fs.readDirEntry e.entryNumber).raw, e.entryNumber⟩ := by
  obtain ⟨name, q, i, -, hi, hfail, rfl, rfl⟩ :=
    @resolveUncached_some fs (fun _ => True) path e c (fun _ _ _ _ _ _ _ => trivial) trivial h
  exact ⟨rfl, (lt_of_findEntryNameParent hi hfail).1, rfl⟩

/-- `echfs_path_resolve` returns the entry on the device and keeps the cache current. -/
theorem CacheCurrent.resolve (h : CacheCurrent pathOf fs) {unid : ℕ} (hid : unid ≠ 0)
    {r : Resolved} (hr : fs.pathResolve (pathOf unid) unid = .ok (r, fs')) :
    CacheCurrent pathOf fs' ∧ ∀ e, r.entry = some e →
      fs.resolveUncached (pathOf unid) = .ok ⟨some e, 0⟩ := by
  unfold pathResolve at hr
  rw [if_pos hid, h.plain.getElem unid] at hr
  cases hlook : fs.cachedDirEntries.lookup unid with
  | some e =>
    rw [hlook] at hr
    cases hr
    refine ⟨h, fun e' he' => ?_⟩
    obtain rfl := Option.some.inj he'
    exact h.current unid e hlook
  | none =>
    rw [hlook] at hr
    obtain ⟨r', hr', hr⟩ := bind_eq_ok.1 hr
    obtain ⟨entry, c⟩ := r'
    cases entry with
    | none =>
      cases hr
      exact ⟨h, fun e he => (some_ne_none e he.symm).elim⟩
    | some e =>
      cases hr
      obtain ⟨rfl, -, -⟩ := resolveUncached_entry hr'
      obtain ⟨hplain, hlookup⟩ := h.plain.setElem hlook e
      refine ⟨⟨hplain, fun k e' hk => ?_⟩, fun e' he' => ?_⟩
      · rw [hlookup] at hk
        rw [resolveUncached_dirCache]
        split_ifs at hk with hku
        · obtain rfl := Option.some.inj hk
          rw [hku]
          exact hr'
        · exact h.current k e' hk
      · obtain rfl := Option.some.inj he'
        exact hr'

/-- Such a write drops the overwritten entry from the cache. -/
theorem KeepsCache.lookup {n : ℕ} {data : DirEntry} (hw : KeepsCache pathOf fs n data)
    (h : fs.cachedDirEntries.Plain) : (fs.writeDirEntry n data).cachedDirEntries.Plain ∧
      ∀ k, (fs.writeDirEntry n data).cachedDirEntries.lookup k =
        (fs.cachedDirEntries.lookup k).filter fun e => !(e.entryNumber == n) :=
  @Hashmap.Plain.dropFirst _ _ h (fun e : DirEntry => e.entryNumber == n)
    (fun k k' e e' he he' hp hp' => hw.single k k' e e' he he' (by simpa using hp)
      (by simpa using hp'))
    (fun k e he hp => hw.notFirst k e he (by simpa using hp))

/-- A write that respects `KeepsCache` keeps the cache current. -/
theorem CacheCurrent.write (h : CacheCurrent pathOf fs) {n : ℕ} {data : DirEntry}
    (hw : KeepsCache pathOf fs n data) : CacheCurrent pathOf (fs.writeDirEntry n data) := by
  obtain ⟨hplain, hlookup⟩ := hw.lookup h.plain
  refine ⟨hplain, fun k e hk => ?_⟩
  rw [hlookup, filter_eq_some_iff] at hk
  obtain ⟨hk, hne⟩ := hk
  have hne : e.entryNumber ≠ n := by simpa using hne
  obtain ⟨e', c, he', hnum⟩ := hw.others k e hk hne
  obtain ⟨-, hlt, heq⟩ := resolveUncached_entry (h.current k e hk)
  obtain ⟨rfl, -, heq'⟩ := resolveUncached_entry he'
  -- the entry is another one than the one written
  rw [he', heq', hnum, readDirEntry_writeDirEntry hlt hw.lt hne, ← heq]

/-- **The cache returns the entries on the device.** -/
theorem resolve_current {fs₀ : Echfs} {ops : List DirOp} (hinit : fs₀.cachedDirEntries = .init)
    (hrun : Run (DirStep pathOf) fs₀ ops fs) {unid : ℕ} (hid : unid ≠ 0) {r : Resolved}
    (hr : fs.pathResolve (pathOf unid) unid = .ok (r, fs')) {e : DirEntry}
    (he : r.entry = some e) : fs.resolveUncached (pathOf unid) = .ok ⟨some e, 0⟩ := by
  have hinv := hrun.invariant (I := CacheCurrent pathOf) (cacheCurrent_init hinit)
    fun fs op fs' h hstep => by
      cases hstep with
      | resolve hid hr => exact (h.resolve hid hr).1
      | write hw => exact h.write hw
  exact (hinv.resolve hid hr).2 e he

/-- A lookup that the cache does not know puts its entry there. -/
theorem pathResolve_miss (h : fs.cachedDirEntries.Plain) {path : List UInt8} {unid : ℕ}
    (hid : unid ≠ 0) (hmiss : fs.cachedDirEntries.lookup unid = none) {e : DirEntry} {c : ℕ}
    (he : fs.resolveUncached path = .ok ⟨some e, c⟩) : fs.pathResolve path unid =
      .ok (⟨some e, c⟩, { fs with cachedDirEntries := fs.cachedDirEntries.setElem unid e }) := by
  have hcongr : ({ fs with cachedDirEntries := fs.cachedDirEntries } : Echfs).resolveUncached path =
      .ok ⟨some e, c⟩ := he
  unfold pathResolve
  rw [if_pos hid, h.getElem unid, hmiss]
  dsimp only
  rw [hcongr]
  rfl

/-- The files `a` and `b` in the root directory. -/
def twoFiles : Echfs := smallVolume (smallDisk (fun b => if b < 23 then echfsEndOfChain else 0)
  fun i => if i = 0 then entryBytes echfsRootDirId echfsTypeFile 21 2 [0x61]
    else if i = 1 then entryBytes echfsRootDirId echfsTypeFile 22 0 [0x62] else fun _ => 0)

/-- The entry of `b` with another size. -/
def newEntry : DirEntry := ⟨entryBytes echfsRootDirId echfsTypeFile 22 9 [0x62], 1⟩

/-- Node 5 has the path `a`, every other node the path `b`. -/
def twoPaths (unid : ℕ) : List UInt8 := if unid = 5 then [0x61] else [0x62]

theorem exists_entry {path : List UInt8} {n : ℕ}
    (h : (fs.resolveUncached path).toOption.map (·.entry.map (·.entryNumber)) = some (some n)) :
    ∃ e, fs.resolveUncached path = .ok ⟨some e, 0⟩ ∧ e.entryNumber = n := by
  obtain ⟨⟨entry, c⟩, hr, hn⟩ := exists_ok_of_map h
  obtain ⟨e, rfl, rfl⟩ := map_eq_some_iff.1 hn
  obtain ⟨rfl, -⟩ := resolveUncached_entry hr
  exact ⟨e, hr, rfl⟩

/-- Both files are in one bucket of the cache, and the second one is overwritten. -/
theorem resolve_current_twoFiles : ∃ fs r fs' e,
    Run (DirStep twoPaths) twoFiles [.resolve 5, .resolve 205, .write 1 newEntry] fs ∧
    fs.pathResolve (twoPaths 205) 205 = .ok (r, fs') ∧ r.entry = some e ∧
    fs.resolveUncached (twoPaths 205) = .ok ⟨some e, 0⟩ := by
  obtain ⟨e1, he1, hn1⟩ := @exists_entry twoFiles (twoPaths 5) 0 (by decide +kernel)
  obtain ⟨e2, he2, hn2⟩ := @exists_entry twoFiles (twoPaths 205) 1 (by decide +kernel)
  obtain ⟨e3, he3, hn3⟩ := @exists_entry (twoFiles.writeDirEntry 1 newEntry) (twoPaths 5) 0
    (by decide +kernel)
  obtain ⟨e4, he4, hn4⟩ := @exists_entry (twoFiles.writeDirEntry 1 newEntry) (twoPaths 205) 1
    (by decide +kernel)
  -- the cache after the two lookups
  let m1 : Hashmap DirEntry := Hashmap.init.setElem 5 e1
  let m2 : Hashmap DirEntry := m1.setElem 205 e2
  have h1 := @Hashmap.Plain.setElem _ _ Hashmap.plain_init 5 rfl e1
  have h2 := @Hashmap.Plain.setElem _ _ h1.1 205 (by rw [h1.2]; rfl) e2
  have hlook : ∀ k, m2.lookup k = if k = 205 then some e2 else if k = 5 then some e1 else none :=
    fun k => by rw [h2.2, h1.2]; rfl
  have hcongr' : ∀ (m : Hashmap DirEntry) path,
      (({ twoFiles with cachedDirEntries := m } : Echfs).writeDirEntry 1 newEntry).resolveUncached
        path = (twoFiles.writeDirEntry 1 newEntry).resolveUncached path := fun m =>
    resolveUncached_congr (readDirEntry_congr rfl rfl rfl)
  have hstep1 : DirStep twoPaths twoFiles (.resolve 5) { twoFiles with cachedDirEntries := m1 } :=
    .resolve (by decide) (pathResolve_miss Hashmap.plain_init (by decide) rfl he1)
  have hstep2 : DirStep twoPaths { twoFiles with cachedDirEntries := m1 } (.resolve 205)
      { twoFiles with cachedDirEntries := m2 } :=
    .resolve (by decide) (pathResolve_miss h1.1 (by decide) (by rw [h1.2]; rfl)
      ((resolveUncached_dirCache twoFiles m1 _).trans he2))
  have hkeeps : KeepsCache twoPaths { twoFiles with cachedDirEntries := m2 } 1 newEntry := by
    have hcases : ∀ k e, m2.lookup k = some e → k = 205 ∧ e = e2 ∨ k = 5 ∧ e = e1 :=
      fun k e hk => by
        rw [hlook] at hk
        split_ifs at hk with h205 h5
        · exact Or.inl ⟨h205, (Option.some.inj hk).symm⟩
        · exact Or.inr ⟨h5, (Option.some.inj hk).symm⟩
    refine ⟨by decide, fun k k' e e' hk hk' hn hn' => ?_, fun k e hk hn => ?_, fun k e hk hn => ?_⟩
    · obtain ⟨rfl, rfl⟩ | ⟨rfl, rfl⟩ := hcases k e hk
      · obtain ⟨rfl, rfl⟩ | ⟨rfl, rfl⟩ := hcases k' e' hk'
        · rfl
        · omega
      · omega
    · obtain ⟨rfl, rfl⟩ | ⟨rfl, rfl⟩ := hcases k e hk
      · have hhead : (m2.buckets (getBucketFromHash 205)).head?.map (·.key) = some 5 := rfl
        intro a ha hkey
        rw [mem_def.1 ha, map_some, hkey] at hhead
        cases hhead
      · omega
    · obtain ⟨rfl, rfl⟩ | ⟨rfl, rfl⟩ := hcases k e hk
      · exact absurd hn2 hn
      · exact ⟨e3, 0, (hcongr' m2 _).trans he3, hn3.trans hn1.symm⟩
  have hrun := ((Run.nil.snoc hstep1).snoc hstep2).snoc (.write hkeeps)
  -- the write drops the entry, and the next lookup goes to the device
  obtain ⟨hplain, hdrop⟩ := hkeeps.lookup h2.1
  have hmiss := hdrop 205
  have hnone : (some e2).filter (fun e => !(e.entryNumber == 1)) = none := by
    simp [hn2]
  have hr := @pathResolve_miss
    (({ twoFiles with cachedDirEntries := m2 } : Echfs).writeDirEntry 1 newEntry) hplain
    (twoPaths 205) 205 (by decide) (hmiss.trans hnone) e4 0 ((hcongr' m2 _).trans he4)
  exact ⟨_, _, _, e4, hrun, hr, rfl, resolve_current rfl hrun (by decide) hr rfl⟩

/-- **A first element of a bucket is returned after it was overwritten.** -/
theorem resolve_stale : ∃ fs fs' r r' r'',
    twoFiles.pathResolve [0x62] 205 = .ok (r, fs) ∧
    (fs.writeDirEntry 1 newEntry).pathResolve [0x62] 205 = .ok (r', fs') ∧
    (fs.writeDirEntry 1 newEntry).resolveUncached [0x62] = .ok r'' ∧
    r'.entry.map (·.fileSizeBytes) = some 0 ∧ r''.entry.map (·.fileSizeBytes) = some 9 := by
  obtain ⟨⟨r', fs'⟩, hrun, hr'⟩ := exists_ok_of_map
    (x := twoFiles.pathResolve [0x62] 205 >>= fun p =>
      (p.2.writeDirEntry 1 newEntry).pathResolve [0x62] 205)
    (f := fun p => p.1.entry.map (·.fileSizeBytes)) (b := some 0) (by decide +kernel)
  obtain ⟨r'', hrun', hr''⟩ := exists_ok_of_map
    (x := twoFiles.pathResolve [0x62] 205 >>= fun p =>
      (p.2.writeDirEntry 1 newEntry).resolveUncached [0x62])
    (f := fun r => r.entry.map (·.fileSizeBytes)) (b := some 9) (by decide +kernel)
  obtain ⟨⟨r, fs⟩, hfs, hrun⟩ := bind_eq_ok.1 hrun
  rw [hfs, ok_bind] at hrun'
  exact ⟨fs, fs', r, r', r'', hfs, hrun, hrun', hr', hr''⟩

end Echfs

end DripOS
