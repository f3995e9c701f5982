import Mist.Nfs.Confinement

/-! The arguments of the NFSv3 procedures that change something: what the protocol says they are, and
how much of them a procedure looks at before it changes something. -/

namespace Mist.Nfs

inductive Mutator where
  | setattr | write | create | mkdir | symlink | remove | rmdir | rename

def Mutator.proc : Mutator → UInt32
  | .setattr => PROC_SETATTR
  | .write => PROC_WRITE
  | .create => PROC_CREATE
  | .mkdir => PROC_MKDIR
  | .symlink => PROC_SYMLINK
  | .remove => PROC_REMOVE
  | .rmdir => PROC_RMDIR
  | .rename => PROC_RENAME

def Call.mutates : Call → Bool
  | create .. | remove .. | rename .. | setattr .. | write .. => true
  | _ => false

section

def past {α : Type} (f : XdrReader → Option (α × XdrReader)) (r : XdrReader) : Option XdrReader :=
  (f r).map Prod.snd

def pastBytes : XdrReader → Option XdrReader := past (·.opaqueData 4294967295)

/-- A union whose discriminant is below `n`; `arm` is what follows it. -/
def pastUnion (n : UInt32) (arm : UInt32 → XdrReader → Option XdrReader) (r : XdrReader) :
    Option XdrReader := do
  let (tag, r) ← r.u32
  if tag < n then arm tag r else none

def pastOptional (f : XdrReader → Option XdrReader) : XdrReader → Option XdrReader :=
  pastUnion 2 fun tag => if tag = 1 then f else some

def pastSetTime : XdrReader → Option XdrReader :=
  pastUnion 3 fun how => if how = 2 then past (·.fixed 8) else some

def pastSattr3 (r : XdrReader) : Option XdrReader :=
  pastOptional (past XdrReader.u32) r >>= pastOptional (past XdrReader.u32) >>=
    pastOptional (past XdrReader.u32) >>= pastOptional (past XdrReader.u64) >>= pastSetTime >>=
    pastSetTime

def pastFh : XdrReader → Option XdrReader := past (·.opaqueData 64)

def pastDirop (r : XdrReader) : Option XdrReader := pastFh r >>= pastBytes

/-- The arguments of a procedure by the protocol, and what is left behind them. -/
def Mutator.pastArgs : Mutator → XdrReader → Option XdrReader
  | .setattr, r => pastFh r >>= pastSattr3 >>= pastOptional (past (·.fixed 8))
  | .write, r =>
    pastFh r >>= past XdrReader.u64 >>= past XdrReader.u32 >>= pastUnion 3 (fun _ => some) >>= pastBytes
  | .create, r =>
    pastDirop r >>= pastUnion 3 fun how => if how = 2 then past (·.fixed 8) else pastSattr3
  | .mkdir, r => pastDirop r >>= pastSattr3
  | .symlink, r => pastDirop r >>= pastSattr3 >>= pastBytes
  | .remove, r | .rmdir, r => pastDirop r
  | .rename, r => pastDirop r >>= pastDirop

def Mutator.Complete (m : Mutator) (args : XdrReader) : Prop := m.pastArgs args = some ⟨[]⟩
  deriving Decidable

end

def namesEntry (codec : HandleCodec) (r : XdrReader) : Bool :=
  (readFh codec r).1.isSome && (readName (readFh codec r).2).1.isSome

/-- The handles and names at the front of the arguments can be read. -/
def Mutator.addressed (codec : HandleCodec) : Mutator → XdrReader → Bool
  | .setattr, r | .write, r => (readFh codec r).1.isSome
  | .create, r | .mkdir, r | .symlink, r | .remove, r | .rmdir, r => namesEntry codec r
  | .rename, r => namesEntry codec r && namesEntry codec (readName (readFh codec r).2).2

/-- Whatever the answers are, the program asks for a change exactly if `b`. -/
def Changes {α : Type} (b : Bool) (m : Served α) : Prop :=
  if b then m.Surely (·.mutates) else m.Holds (fun q => q.mutates = false) fun _ => True

section

variable {ex : Export} {args : XdrReader} {w : XdrWriter}

theorem onName_changes {body : NodeKey → List UInt8 → XdrReader → Served XdrWriter}
    (hbody : ∀ dir name rest, (body dir name rest).Surely (·.mutates)) :
    Changes (namesEntry ex.codec args) (onName ex args w body) := by
  unfold onName namesEntry
  rcases readFh ex.codec args with ⟨_ | fh, rest⟩
  · trivial
  rcases hname : readName rest with ⟨_ | name, rest'⟩
  · simp only [hname]
    exact ⟨rfl, fun _ => trivial⟩
  · simp only [hname]
    exact hbody ..

theorem procSetattr_changes : Changes (readFh ex.codec args).1.isSome (procSetattr ex args w) := by
  unfold procSetattr
  rcases readFh ex.codec args with ⟨_ | fh, rest⟩
  · trivial
  · exact .inl rfl

theorem procWrite_changes : Changes (readFh ex.codec args).1.isSome (procWrite ex args w) := by
  unfold procWrite
  rcases readFh ex.codec args with ⟨_ | fh, rest⟩
  · trivial
  · exact .inr fun _ => .inl rfl

theorem procRename_changes :
    Changes (namesEntry ex.codec args && namesEntry ex.codec (readName (readFh ex.codec args).2).2)
      (procRename ex args w) := by
  unfold procRename namesEntry
  rcases readFh ex.codec args with ⟨_ | dir, rest⟩
  · trivial
  dsimp only
  rcases readName rest with ⟨name, rest'⟩
  rcases readFh ex.codec rest' with ⟨_ | dir', rest''⟩
  · cases name <;> trivial
  rcases hname : readName rest'' with ⟨name', _⟩
  cases name <;> cases name' <;> simp only [hname]
  · exact ⟨rfl, fun _ => ⟨rfl, fun _ => trivial⟩⟩
  · exact ⟨rfl, fun _ => ⟨rfl, fun _ => trivial⟩⟩
  · exact ⟨rfl, fun _ => ⟨rfl, fun _ => trivial⟩⟩
  · exact .inl rfl

theorem dispatch_changes (m : Mutator) :
    Changes (m.addressed ex.codec args) (dispatch ex args w m.proc) := by
  have hwhole : ∀ {b : Bool} {n : Served XdrWriter}, Changes b n →
      Changes b (n >>= fun w => .done (Reply.whole w)) := by
    intro b n h
    cases b with
    | true => exact Asks.Surely.bind h _
    | false => exact Asks.Holds.bind h fun _ _ => trivial
  cases m with
  | setattr => exact hwhole procSetattr_changes
  | write => exact hwhole procWrite_changes
  | create => exact hwhole (onName_changes fun _ _ _ => .inl rfl)
  | mkdir => exact hwhole (onName_changes fun _ _ _ => .inl rfl)
  | symlink => exact hwhole (onName_changes fun _ _ _ => .inl rfl)
  | remove => exact hwhole (onName_changes fun _ _ _ => .inl rfl)
  | rmdir => exact hwhole (onName_changes fun _ _ _ => .inl rfl)
  | rename => exact hwhole procRename_changes

end

/-- Arguments that are not complete change nothing exactly if a handle or a name in front of them
cannot be read. -/
theorem malformed_changes_iff {σ : Type} (answer : (q : Call) → σ → q.Answer × σ) (s : σ)
    (ex : Export) (w : XdrWriter) (m : Mutator) (args : XdrReader) :
    (¬ m.Complete args →
      ∀ q ∈ ((dispatch ex args w m.proc).run answer s).asked, q.mutates = false) ↔
    (m.Complete args ∨ m.addressed ex.codec args = false) := by
  have hchanges := @dispatch_changes ex args w m
  cases haddressed : m.addressed ex.codec args with
  | true =>
    rw [haddressed] at hchanges
    obtain ⟨q, hq, hmutates⟩ := Asks.Surely.run hchanges answer s
    refine ⟨fun h => .inl ?_, fun h hne => absurd (h.resolve_right Bool.noConfusion) hne⟩
    by_contra hne
    rw [h hne q hq] at hmutates
    cases hmutates
  | false =>
    rw [haddressed] at hchanges
    exact ⟨fun _ => .inr rfl, fun _ _ => (Asks.Holds.run hchanges answer s).2⟩

/-- A CREATE that is cut off behind the name makes the file. -/
theorem cut_create_changes :
    ¬ (¬ Mutator.create.Complete ⟨handleOfFirst ++ be32 1 ++ [97, 0, 0, 0]⟩ →
      ∀ q ∈ ((dispatch (mountOf 1) ⟨handleOfFirst ++ be32 1 ++ [97, 0, 0, 0]⟩ .new
        Mutator.create.proc).run oneFile ()).asked, q.mutates = false) := by
  decide +kernel

end Mist.Nfs
