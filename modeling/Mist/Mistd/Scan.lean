import Mist.Mistd.Walker
import Mist.Weigh

/-! The scan of one directory. -/

namespace Mist

open List DirJob

/-- What the guest's kernel answers to a walk of a share: `statx` of the root, `openat2` beneath the
root, `getdents` with `none` for a name that could not be read, `statx` and the handle of an entry,
and `readlinkat`. -/
structure GuestFs where
  statRoot : Option Attr
  openRel : List Name → Option NodeKey
  readDir : NodeKey → Option (List (Option (List UInt8)))
  statx : NodeKey → List UInt8 → Option (NodeKey × Attr)
  readlink : NodeKey → List UInt8 → Option (List UInt8)

inductive Scanned where
  | skipped
  | failed
  | entry (e : SnapEntry)

def Scanned.found : Scanned → Option SnapEntry
  | .entry e => some e
  | .skipped | .failed => none

@[simp] theorem Scanned.found_entry (e : SnapEntry) : (Scanned.entry e).found = some e := rfl

/-- Look at one name; a symlink that cannot be read is left out. -/
def GuestFs.readEntry (fs : GuestFs) (dir : NodeKey) : Option (List UInt8) → Scanned
  | none => .failed
  | some bytes =>
    if bytes = [46] ∨ bytes = [46, 46] then .skipped
    else
      match Name.new bytes with
      | .error _ => .failed
      | .ok name =>
        match fs.statx dir bytes with
        | none => .failed
        | some (node, attr) =>
          if attr.kind = .symlink then
            match fs.readlink dir bytes with
            | none => .failed
            | some target => .entry ⟨name, node, { attr with symlinkTarget := some target }⟩
          else .entry ⟨name, node, { attr with symlinkTarget := none }⟩

structure ScanOutput where
  records : List SnapDir
  subdirs : List DirJob
  entries : UInt64
  errors : UInt32

namespace ScanOutput

def empty : ScanOutput := ⟨[], [], 0, 0⟩

def flush (out : ScanOutput) (info : WalkInfo) (job : DirJob) (entries : List SnapEntry)
    (last : Bool) : ScanOutput :=
  { out with records := out.records ++ [job.record info entries last] }

def add (out : ScanOutput) (job : DirJob) (e : SnapEntry) : ScanOutput :=
  { out with subdirs := out.subdirs ++ job.subdirs [e], entries := out.entries + 1 }

/-- A directory that could not be read: an empty last record, so that the host marks it complete. -/
def unread (info : WalkInfo) (job : DirJob) : ScanOutput :=
  { empty.flush info job [] true with errors := 1 }

end ScanOutput

/-- The loop over the names, with the entries that are not in a record yet. -/
def scanEntries (fs : GuestFs) (info : WalkInfo) (job : DirJob) (dir : NodeKey)
    (pending : List SnapEntry) (out : ScanOutput) : List (Option (List UInt8)) → ScanOutput
  | [] => out.flush info job pending true
  | raw :: raws =>
    match fs.readEntry dir raw with
    | .skipped => scanEntries fs info job dir pending out raws
    | .failed => scanEntries fs info job dir pending { out with errors := out.errors + 1 } raws
    | .entry e =>
      if (pending ++ [e]).length ≥ info.perRecord then
        scanEntries fs info job dir [] ((out.add job e).flush info job (pending ++ [e]) false) raws
      else scanEntries fs info job dir (pending ++ [e]) (out.add job e) raws

def scanDir (fs : GuestFs) (info : WalkInfo) (job : DirJob) : ScanOutput :=
  match fs.openRel job.rel with
  | none => .unread info job
  | some dir =>
    match fs.readDir dir with
    | none => .unread info job
    | some raws => scanEntries fs info job dir [] .empty raws

def pathMax : Nat := 4096

/-- The length of a path from the root: the dot, and a slash with each name. -/
def relLength (path : List Name) : Nat := 1 + weigh (fun x => 1 + x.bytes.length) path

structure Tree.Names (T : Tree) (d : NodeKey) (raws : List (Option (List UInt8))) : Prop where
  known : ∀ raw ∈ raws, raw = some [46] ∨ raw = some [46, 46] ∨
    ∃ x k, raw = some x.bytes ∧ T.entry d x = some k
  all : ∀ x k, T.entry d x = some k → some x.bytes ∈ raws
  once : raws.Nodup

/-- The kernel answers from a tree that does not change, of which everything can be read. -/
structure GuestFs.Serves (fs : GuestFs) (T : Tree) : Prop where
  statRoot : fs.statRoot = some (T.statx T.root)
  opens : ∀ path k, T.Leads T.root path k → relLength path < pathMax → fs.openRel path = some k
  tooLong : ∀ path, pathMax ≤ relLength path → fs.openRel path = none
  reads : ∀ d, T.Live d → T.kind d = .dir → ∃ raws, fs.readDir d = some raws ∧ T.Names d raws
  statx : ∀ d x k, T.entry d x = some k →
    fs.statx d x.bytes = some (k, { T.statx k with symlinkTarget := none })
  readlink : ∀ d x k, T.entry d x = some k → T.kind k = .symlink →
    ∃ target, fs.readlink d x.bytes = some target ∧ (T.attr k).symlinkTarget = some target
  noTarget : ∀ d x k, T.entry d x = some k → T.kind k ≠ .symlink → (T.attr k).symlinkTarget = none

structure Tree.Lists (T : Tree) (d : NodeKey) (es : List SnapEntry) : Prop where
  entries : ∀ e ∈ es, T.entry d e.name = some e.node ∧ e.attr = T.statx e.node
  all : ∀ x k, T.entry d x = some k → ∃ e ∈ es, e.name = x
  once : (es.map SnapEntry.name).Nodup

structure Scans (fs : GuestFs) (info : WalkInfo) (T : Tree) (job : DirJob) (es : List SnapEntry) :
    Prop where
  lists : T.Lists job.node es
  records : (scanDir fs info job).records = job.flush info [] es
  subdirs : (scanDir fs info job).subdirs = job.subdirs es
  entries : (scanDir fs info job).entries = es.length.toUInt64

variable {fs : GuestFs} {info : WalkInfo} {job : DirJob} {dir d k : NodeKey} {T : Tree} {x : Name}

theorem toUInt64_succ (n : Nat) : (n + 1).toUInt64 = n.toUInt64 + 1 := by
  apply UInt64.toNat_inj.mp
  simp [UInt64.toNat_add]

theorem scanEntries_spec (raws : List (Option (List UInt8)))
    (hread : ∀ raw ∈ raws, fs.readEntry dir raw ≠ .failed) (pending : List SnapEntry)
    (out : ScanOutput) :
    scanEntries fs info job dir pending out raws =
      { records := out.records ++
          job.flush info pending (raws.filterMap fun raw => (fs.readEntry dir raw).found)
        subdirs := out.subdirs ++
          job.subdirs (raws.filterMap fun raw => (fs.readEntry dir raw).found)
        entries := out.entries +
          (raws.filterMap fun raw => (fs.readEntry dir raw).found).length.toUInt64
        errors := out.errors } := by
  induction raws generalizing pending out with
  | nil => simp [scanEntries, flush, subdirs, ScanOutput.flush]
  | cons raw raws ih =>
    have hrest := ih fun raw' h => hread raw' (.tail _ h)
    rw [scanEntries, filterMap_cons]
    cases hraw : fs.readEntry dir raw with
    | skipped => exact hrest pending out
    | failed => exact absurd hraw (hread raw (.head _))
    | entry e =>
      have hsubdirs : ∀ es, job.subdirs (e :: es) = job.subdirs [e] ++ job.subdirs es := fun es => by
        simp only [subdirs, ← map_append, ← filter_append]
        rfl
      simp only [Scanned.found_entry, flush]
      rw [hsubdirs, length_cons, toUInt64_succ]
      split
      · rw [hrest]
        simp only [ScanOutput.flush, ScanOutput.add, append_assoc, singleton_append]
        rw [UInt64.add_assoc, UInt64.add_comm 1]
      · rw [hrest]
        simp only [ScanOutput.add, append_assoc]
        rw [UInt64.add_assoc, UInt64.add_comm 1]

theorem Name.not_dots (x : Name) : ¬ (x.bytes = [46] ∨ x.bytes = [46, 46]) := by
  have hvalid := x.valid
  rintro (h | h)
  · rw [h] at hvalid
    cases hvalid
  · rw [h] at hvalid
    cases hvalid

theorem Name.ext {y : Name} (h : x.bytes = y.bytes) : x = y := by
  cases x
  cases y
  cases h
  rfl

theorem GuestFs.Serves.readEntry (hfs : fs.Serves T) (hx : T.entry d x = some k) :
    fs.readEntry d (some x.bytes) = .entry ⟨x, k, T.statx k⟩ := by
  have hnew : Name.new x.bytes = .ok x := by
    unfold Name.new
    split
    · rfl
    · rename_i h
      rw [x.valid] at h
      cases h
  rw [GuestFs.readEntry, if_neg x.not_dots]
  simp only [hnew, hfs.statx d x k hx]
  split_ifs with hlink
  · obtain ⟨target, hread, htarget⟩ := hfs.readlink d x k hx hlink
    simp only [hread, Tree.statx, htarget]
  · simp only [Tree.statx, hfs.noTarget d x k hx hlink]

theorem GuestFs.Serves.lists (hfs : fs.Serves T) {raws : List (Option (List UInt8))}
    (hnames : T.Names d raws) :
    (∀ raw ∈ raws, fs.readEntry d raw ≠ .failed) ∧
      T.Lists d (raws.filterMap fun raw => (fs.readEntry d raw).found) := by
  -- what is found under the bytes is the entry of their name
  have hfound : ∀ raw ∈ raws, ∀ e, (fs.readEntry d raw).found = some e →
      raw = some e.name.bytes ∧ T.entry d e.name = some e.node ∧ e.attr = T.statx e.node := by
    intro raw hraw e he
    rcases hnames.known raw hraw with rfl | rfl | ⟨x, k, rfl, hx⟩
    · cases he
    · cases he
    · rw [hfs.readEntry hx] at he
      cases he
      exact ⟨rfl, hx, rfl⟩
  refine ⟨fun raw hraw hfail => ?_, fun e he => ?_, fun x k hx => ?_, ?_⟩
  · rcases hnames.known raw hraw with rfl | rfl | ⟨x, k, rfl, hx⟩
    · cases hfail
    · cases hfail
    · rw [hfs.readEntry hx] at hfail
      cases hfail
  · obtain ⟨raw, hraw, hsome⟩ := mem_filterMap.mp he
    exact (hfound raw hraw e hsome).2
  · refine ⟨⟨x, k, T.statx k⟩, mem_filterMap.mpr ⟨_, hnames.all x k hx, ?_⟩, rfl⟩
    rw [hfs.readEntry hx]
    rfl
  · rw [Nodup, pairwise_map, pairwise_filterMap]
    refine hnames.once.imp_of_mem fun {a b} ha hb hne e he e' he' hname => hne ?_
    rw [(hfound a ha e he).1, (hfound b hb e' he').1, hname]

/-- The directories that have a name in them are at paths the kernel takes. -/
def Tree.Openable (T : Tree) : Prop :=
  ∀ path d x k, T.Leads T.root path d → T.entry d x = some k → relLength path < pathMax

theorem GuestFs.Serves.scanDir (hfs : fs.Serves T) (hopen : T.Openable) (hlive : T.Live job.node)
    (hleads : T.Leads T.root job.rel job.node) : ∃ es, Scans fs info T job es := by
  by_cases hfits : relLength job.rel < pathMax
  · obtain ⟨raws, hraws, hnames⟩ := hfs.reads job.node hlive hleads.2
    obtain ⟨hread, hlists⟩ := hfs.lists hnames
    have hscan : Mist.scanDir fs info job =
        scanEntries fs info job job.node [] .empty raws := by
      simp only [Mist.scanDir, hfs.opens job.rel job.node hleads hfits, hraws]
    rw [scanEntries_spec raws hread] at hscan
    refine ⟨_, hlists, ?_, ?_, ?_⟩
    · rw [hscan]
      rfl
    · rw [hscan]
      rfl
    · rw [hscan]
      exact UInt64.zero_add _
  · -- no name is in it, so that the record of a failure is the record of the directory
    have hempty : ∀ x k, T.entry job.node x ≠ some k := fun x k hx =>
      hfits (hopen job.rel job.node x k hleads hx)
    have hscan : Mist.scanDir fs info job = .unread info job := by
      simp only [Mist.scanDir, hfs.tooLong job.rel (by omega)]
    refine ⟨[], ⟨nofun, fun x k hx => absurd hx (hempty x k), nodup_nil⟩, ?_, ?_, ?_⟩
    · rw [hscan]
      rfl
    · rw [hscan]
      rfl
    · rw [hscan]
      rfl

end Mist
