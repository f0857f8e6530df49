/-
# The names that are cut out of a path

Two loops of `utils/path_parse.c` cut a path into names: that of `PathParseTreeInsert`, which stops
where the name that it is at ends the string, and that of `CheckWhetherPathExistsInDirectoryTable`,
which stops where the string has ended before a name.  Behind a slash at the end the first one sees
a name, which is empty, and the second one none; between two slashes in a row both see an empty one.
`VerifyPathValidity` asks only for the slash in front.

So `mkdir` of `/a/`, where `/a` is a directory, stores a row with an empty name, and so does a
`rename` to the empty string, which nobody verifies.  The second half of the file follows the names
into the rows that `mkdir`, `create` and `rename` store, here and on the workers, whatever the
tables hold: that the path is not empty and does not end in a slash is enough.
-/
import FalconFS.Metadb.HandleSpec
import FalconFS.Utils.PathCmp

namespace FalconFS.PathNames

open List FalconFS.Path

/-! ## 1. The two loops -/

/-- The inner loop of both: the name that starts here, and what follows the slash behind it, unless
the string ends with the name. -/
def nextName : List UInt8 → Name × Option (List UInt8)
  | [] => ([], none)
  | c :: s => if c = slash then ([], some s) else (c :: (nextName s).1, (nextName s).2)

theorem nextName_length {s s' : List UInt8} (h : (nextName s).2 = some s') :
    s'.length < s.length := by
  induction s with
  | nil => cases h
  | cons c s ih =>
    by_cases hc : c = slash
    · simp_all [nextName]
    · exact Nat.lt_succ_of_lt (ih (by simpa [nextName, hc] using h))

/-- The loop of `PathParseTreeInsert` from its second round on; the last name is the target's. -/
def insertLoop (s : List UInt8) : List Name :=
  match _h : (nextName s).2 with
  | none => [(nextName s).1]
  | some s' => (nextName s).1 :: insertLoop s'
termination_by s.length
decreasing_by exact nextName_length _h

/-- The loop of `CheckWhetherPathExistsInDirectoryTable` from its second round on. -/
def checkLoop (s : List UInt8) : List Name :=
  if s = [] then []
  else
    match _h : (nextName s).2 with
    | none => [(nextName s).1]
    | some s' => (nextName s).1 :: checkLoop s'
termination_by s.length
decreasing_by exact nextName_length _h

/-- The names for `PathParseTreeInsert`: in the first round the name is one byte long, but for the
empty string. -/
def insertNames (p : Path) : List Name :=
  match p.bytes with
  | [] => [[]]
  | c :: s => if s = [] then [[c]] else [c] :: insertLoop s

/-- The names for `CheckWhetherPathExistsInDirectoryTable`. -/
def checkedNames (p : Path) : List Name :=
  match p.bytes with
  | [] => []
  | c :: s => [c] :: checkLoop s

/-- Neither two slashes in a row nor one at the end. -/
def slashesApart : List UInt8 → Bool
  | [] => true
  | [c] => c != slash
  | c :: d :: s => !(c == slash && d == slash) && slashesApart (d :: s)

/-- A round of the loops cuts off the first piece. -/
theorem splitSlash_eq (s : List UInt8) :
    splitSlash s =
      (nextName s).1 ::
        match (nextName s).2 with
        | none => []
        | some s' => splitSlash s' := by
  induction s with
  | nil => rfl
  | cons c s ih =>
    by_cases hc : c = slash
    · simp [splitSlash, nextName, hc]
    · simp only [splitSlash, nextName, if_neg hc]
      rw [ih]

theorem insertLoop_eq (s : List UInt8) : insertLoop s = splitSlash s := by
  fun_induction insertLoop s with
  | case1 s h => rw [splitSlash_eq, h]
  | case2 s s' h ih => rw [splitSlash_eq, h, ih]

/-- The other loop leaves out an empty name at the end. -/
theorem checkLoop_eq (s : List UInt8) :
    checkLoop s =
      if (splitSlash s).getLast? = some [] then (splitSlash s).dropLast else splitSlash s := by
  fun_induction checkLoop s with
  | case1 => rfl
  | case2 s hs h =>
    -- the string ends with a name that has at least one byte
    have hname : (nextName s).1 ≠ [] := by
      obtain ⟨c, t, rfl⟩ := exists_cons_of_ne_nil hs
      by_cases hc : c = slash <;> simp_all [nextName]
    simp [splitSlash_eq s, h, hname]
  | case3 s hs s' h ih =>
    rw [splitSlash_eq s, h, ih]
    obtain ⟨n, ns, hns⟩ := exists_cons_of_ne_nil (splitSlash_ne_nil s')
    simp only [hns, getLast?_cons_cons, dropLast_cons_cons]
    split <;> rfl

/-- The loops are those of the model of the handlers. -/
theorem insertNames_eq (p : Path) : insertNames p = p.names := by
  obtain ⟨_ | ⟨c, s⟩⟩ := p
  · rfl
  · simp only [insertNames, names, insertLoop_eq]
    split <;> rfl

theorem checkedNames_eq (p : Path) : checkedNames p = p.lookupNames := by
  obtain ⟨_ | ⟨c, s⟩⟩ := p
  · rfl
  · simp only [checkedNames, checkLoop_eq, lookupNames, names]
    by_cases hs : s = []
    · simp [hs, splitSlash]
    · obtain ⟨n, ns, hns⟩ := exists_cons_of_ne_nil (splitSlash_ne_nil s)
      simp only [hs, if_false, hns, getLast?_cons_cons, dropLast_cons_cons]
      split <;> rfl

/-- The pieces of what follows a byte are not empty, the first one apart if the byte is not a
slash, when the slashes are apart. -/
theorem slashesApart_cons_iff (c : UInt8) (s : List UInt8) :
    slashesApart (c :: s) ↔
      ∀ n ∈ if c = slash then splitSlash s else (splitSlash s).tail, n ≠ [] := by
  induction s generalizing c with
  | nil => by_cases hc : c = slash <;> simp [slashesApart, splitSlash, hc]
  | cons d s ih =>
    obtain ⟨n, ns, hns⟩ := exists_cons_of_ne_nil (splitSlash_ne_nil s)
    have := ih d
    by_cases hc : c = slash <;> by_cases hd : d = slash <;>
      simp_all [slashesApart, splitSlash]

theorem names_nonempty_iff {p : Path} (hp : p.isAbsolute = true) :
    (∀ n ∈ p.names, n ≠ []) ↔ p.isRoot ∨ slashesApart p.bytes := by
  obtain ⟨s, hs⟩ := exists_of_isAbsolute hp
  rw [hs, slashesApart_cons_iff, if_pos rfl]
  by_cases hr : s = [] <;> simp [names, isRoot, hs, hr]

/-! ## 2. Rows with a name -/

/-- The key of the root, or one with a proper name. -/
def Named (k : Key) : Prop := k = ⟨0, [slash]⟩ ∨ k.fileName ≠ [] ∧ slash ∉ k.fileName

/-- The path is that of the root, or is not empty and does not end in a slash. -/
def EndsInName (p : Path) : Prop :=
  p.isRoot ∨ p.bytes ≠ [] ∧ p.bytes.getLast? ≠ some slash

theorem endsInName_of_canBeFile {p : Path} (h : p.canBeFile = true) : EndsInName p := by
  rw [canBeFile, Bool.and_eq_true] at h
  obtain ⟨s, hs⟩ := exists_of_isAbsolute h.1
  exact .inr ⟨by simp [hs], bne_iff_ne.mp h.2⟩

/-- The keys under which an operation stores a new row. -/
def stores : ServerOp → List Key
  | .hash (.insert _) k _ => [k]
  | .inode (.insert k _) => [k]
  | _ => []

/-- The commands that an operation sends. -/
def commands : ServerOp → List (ServerId × SubRequest)
  | .remote cmds => cmds
  | _ => []

/-- Whatever the results of its operations, the program stores rows with a name only. -/
def StoresNamed {α : Type} (p : Handler α) : Prop :=
  Prog.Safe (fun _ o => ∀ k ∈ stores o, Named k) (fun _ _ => True) [] p

/-- So does the operation, and so do the programs that its commands start on the workers. -/
def OpNamed (cfg : Config) (_ : List Entry) (o : ServerOp) : Prop :=
  (∀ k ∈ stores o, Named k) ∧ ∀ c ∈ commands o, StoresNamed (subHandle cfg c.1 c.2)

/-- The same for a whole handler. -/
def StoresNamedEverywhere {α : Type} (cfg : Config) (p : Handler α) : Prop :=
  Prog.Safe (OpNamed cfg) (fun _ _ => True) [] p

theorem slash_notMem_splitSlash {s : List UInt8} {n : Name} (h : n ∈ splitSlash s) : slash ∉ n := by
  induction s generalizing n with
  | nil => simp_all [splitSlash]
  | cons c s ih =>
    obtain ⟨m, ms, hms⟩ := exists_cons_of_ne_nil (splitSlash_ne_nil s)
    by_cases hc : c = slash
    · rcases (by simpa [splitSlash, hc] using h : n = [] ∨ n ∈ splitSlash s) with rfl | h
      · simp
      · exact ih h
    · rcases (by simpa [splitSlash, hc, hms] using h : n = c :: m ∨ n ∈ ms) with rfl | h
      · simpa [Ne.symm hc] using ih (by simp [hms] : m ∈ splitSlash s)
      · exact ih (by simp [hms, h])

/-- The last piece ends with the string. -/
theorem getLast?_splitSlash {c : UInt8} (hc : c ≠ slash) (s : List UInt8) :
    (splitSlash (s ++ [c])).getLast? ≠ some [] := by
  induction s with
  | nil => simp [splitSlash, hc]
  | cons d s ih =>
    obtain ⟨n, ns, hns⟩ := exists_cons_of_ne_nil (splitSlash_ne_nil (s ++ [c]))
    cases ns <;> by_cases hd : d = slash <;> simp_all [splitSlash]

/-- **The key of a target has a name.** -/
theorem named_of_target {p : Path} {g : PathTarget} (hg : TargetOf p g) (hp : EndsInName p) :
    Named g.key := by
  obtain ⟨hn, hid⟩ := hg
  obtain ⟨id, n, _⟩ := g
  obtain ⟨_ | ⟨c, s⟩⟩ := p
  · simp [EndsInName, isRoot] at hp
  rcases eq_nil_or_concat' s with rfl | ⟨t, d, rfl⟩
  · cases hn
    rcases hp with hp | hp
    · obtain rfl : c = slash := by simpa [isRoot] using hp
      exact .inl (by rw [PathTarget.key, hid rfl])
    · have hc : c ≠ slash := by simpa using hp
      exact .inr ⟨by simp [PathTarget.key], by simpa [PathTarget.key] using hc.symm⟩
  · have hd : d ≠ slash := by
      rintro rfl
      rcases hp with hp | hp
      · simp [isRoot] at hp
      · exact hp.2 (getLast?_concat (l := c :: t))
    obtain ⟨m, ms, hms⟩ := exists_cons_of_ne_nil (splitSlash_ne_nil (t ++ [d]))
    have hlast : (splitSlash (t ++ [d])).getLast? = some n := by
      simpa [names, hms] using hn
    refine .inr ⟨?_, slash_notMem_splitSlash (mem_of_getLast? hlast)⟩
    rintro rfl
    exact getLast?_splitSlash hd t hlast

/-! ## 3. The handlers

They store rows, here and on the workers, under the keys of their targets only (`OpOkIn`). -/

theorem OpOkIn.stores {N : Key → Prop} {cfg : Config} {i : ServerId} {cmds : List SubRequest}
    {h : List Entry} {o : ServerOp} (ho : OpOkIn N cfg i cmds h o) : ∀ k ∈ stores o, N k := by
  cases o with
  | hash op k mode =>
    cases op with
    | insert id => exact forall_mem_singleton.mpr (ho.2 id rfl)
    | search | delete => nofun
  | inode o =>
    cases o with
    | insert k row => exact forall_mem_singleton.mpr ho.2
    | _ => nofun
  | nextInodeId | remote => nofun

/-- **A handler whose targets have names stores rows with names only.** -/
theorem storesNamedEverywhere_of_safe {α : Type} {cfg : Config} {i : ServerId} {p : Handler α}
    {Q : List Entry → α → Prop} (hp : Prog.Safe (OpOkIn Named cfg i []) Q [] p) :
    StoresNamedEverywhere cfg p := by
  refine hp.weaken (fun h o ho => ⟨OpOkIn.stores ho, fun c hc => ?_⟩) fun _ _ _ => trivial
  cases o with
  | remote cmds =>
    exact (safe_subHandle (mem_singleton_self c.2) (ho.2.2.2 c hc)).weaken
      (fun _ _ => OpOkIn.stores) fun _ _ _ => trivial
  | _ => cases hc

/-- **The two loops cut an accepted path into the same names, none of them empty, exactly if its
slashes are apart**; and no row without a name is stored by a `mkdir` of paths that do not end in a
slash, by a `rename` to a string that is not empty and does not end in one, nor by any `create`. -/
theorem names_agree_iff (cfg : Config) (self : ServerId) :
    (∀ p requirement, verifyPathValidity p requirement = .success →
      ((insertNames p = checkedNames p ∧ ∀ n ∈ insertNames p, n ≠ []) ↔
        p.isRoot ∨ slashesApart p.bytes)) ∧
    (∀ paths : List Path,
      (∀ p ∈ paths, verifyPathValidity p .mustBeDirectory = .success → EndsInName p) →
        StoresNamedEverywhere cfg (falconMkdirHandle cfg self paths)) ∧
    (∀ paths, StoresNamedEverywhere cfg (falconCreateHandle cfg self paths)) ∧
    ∀ src dst, EndsInName dst →
      StoresNamedEverywhere cfg (falconRenameHandle cfg self src dst) := by
  refine ⟨fun p requirement hv => ?_, fun paths hpaths => ?_, fun paths => ?_,
    fun src dst hdst => ?_⟩
  case refine_2 =>
    refine storesNamedEverywhere_of_safe (safe_mkdir self fun p hp hv g hg => ?_)
    exact named_of_target hg (hpaths p hp hv)
  case refine_3 =>
    -- `create` refuses a path that ends in a slash
    refine storesNamedEverywhere_of_safe (safe_create paths fun p hv g hg => ?_)
    exact named_of_target hg (endsInName_of_canBeFile (by grind [verifyPathValidity]))
  case refine_4 =>
    exact storesNamedEverywhere_of_safe (safe_rename src self fun g hg => named_of_target hg hdst)
  have hp := isAbsolute_of_verify hv
  rw [insertNames_eq, checkedNames_eq, ← names_nonempty_iff hp]
  refine ⟨And.right, fun hne => ⟨?_, hne⟩⟩
  -- with no empty name at the end there is nothing to leave out
  have hlast : p.names.getLast? ≠ some [] := fun h => hne _ (mem_of_getLast? h) rfl
  rw [lookupNames, if_neg hlast]

/-- `/a` -/
def pathA : Path := ⟨[slash, 97]⟩

/-- `/a/` -/
def pathASlash : Path := ⟨[slash, 97, slash]⟩

theorem names_agree_pathA :
    (insertNames pathA = checkedNames pathA ∧ ∀ n ∈ insertNames pathA, n ≠ []) ∧
      StoresNamedEverywhere oneWorker (falconMkdirHandle oneWorker 0 [pathA]) :=
  have h := names_agree_iff oneWorker 0
  ⟨(h.1 pathA .none (by decide)).mpr (by decide), h.2.1 [pathA] (by
    simp only [mem_singleton, forall_eq, EndsInName]
    decide)⟩

/-- The operations of a coordinator with this directory table, when the workers agree. -/
def onTable (table : List (Key × InodeId)) :
    (o : ServerOp) → Option (List (Key × InodeId) × o.Res)
  | .hash .search k _ => some (table, table.lookup k)
  | .hash (.insert id) k _ => some ((k, id) :: table, none)
  | .hash .delete k _ => some (table.filter (·.1 ≠ k), none)
  | .nextInodeId => some (table, 3)
  | .inode _ => none
  | .remote _ => some (table, fun _ => [.done])

/-- With `/a` there as directory 2, `mkdir("/a/")` stores `(2, "")`, and `rename("/a", "")` stores
`(0, "")`. -/
theorem empty_name_stored :
    verifyPathValidity pathASlash .mustBeDirectory = .success ∧
    insertNames pathASlash = [[slash], [97], []] ∧ checkedNames pathASlash = [[slash], [97]] ∧
    (falconMkdirHandle oneWorker 0 [pathASlash]).run onTable
        [(⟨0, [slash]⟩, 1), (⟨1, [97]⟩, 2)] =
      some ([(⟨2, []⟩, 3), (⟨0, [slash]⟩, 1), (⟨1, [97]⟩, 2)], .ok [.success]) ∧
    (falconRenameHandle oneWorker 0 pathA ⟨[]⟩).run onTable
        [(⟨0, [slash]⟩, 1), (⟨1, [97]⟩, 2)] =
      some ([(⟨0, []⟩, 2), (⟨0, [slash]⟩, 1)], .ok [.success]) := by
  refine ⟨by decide, ?_, ?_, by rfl, by rfl⟩
  · rw [insertNames_eq]
    decide
  · rw [checkedNames_eq]
    decide

end FalconFS.PathNames
