/-
# The tables of the router, in use and replaced

`Router.lean` follows a router that has fetched a well-formed table.  Here the table is any one that
covers the hash values (`Router.Covers`), and the reply that replaces it is any one at all.

* **A trailing slash** is cut off the view of a path, but not off the memory that is hashed.  So
  `/a/` is routed by the hash of `a/`, and goes where `/a` goes only if both hash values belong to
  one server (`trailing_slash_iff`).
* **`FetchShardTable`** clears both maps and then fills them row by row, throwing at the first row
  that does not follow the last one, or whose server is new and whose channel cannot be set up.
  What is in the maps then stays there.  A reply whose first range begins above 0 is not refused at
  all: the values below it go to a server that does not exist.  `fetch_keeps_maps` says which
  replies leave the router in order, for one fetch and for all those of `TryToUpdateWorkerConn`.

Whether `brpc::Channel::Init` succeeds for a server is a part of the reply that is fetched: in the
constructor of `Connection` a failure is an exception.
-/
import FalconFS.Basic
import FalconFS.Client.Router

namespace FalconFS.Client

open OrderedMap ShardTable List RouteMap

/-! ## 1. Tables that cover the hash values -/

/-- **A table in order**: every hash value is in a range, whose server has a connection. -/
structure Router.Covers (router : Router) : Prop where
  sorted : Sorted router.shardTable
  found : ∀ v, 0 ≤ v → v ≤ int32Max →
    ∃ e, IsLeast router.shardTable v e ∧ (router.routeMap.find? e.2).isSome

/-- The hash value of a name, given the memory from its first byte on. -/
def hashOfName (signedChar : Bool) (fileName : List Byte) : Int :=
  hashInt8 ((clientHashPartId signedChar fileName).zeroExtend 64)

theorem Router.Covers.route {router : Router} (h : router.Covers) (signedChar : Bool)
    {path : List Byte} (habs : path.head? = some slash) :
    ∃ e conn, IsLeast router.shardTable (hashOfName signedChar (filenameData path)) e ∧
      conn.server = e.2 ∧ router.getWorkerConnByPath signedChar path = .ok (some conn) := by
  have hrange := hashInt64_range hashBytesUint32
    ((clientHashPartId signedChar (filenameData path)).zeroExtend 64)
  obtain ⟨e, hleast, hroute⟩ := h.found _ hrange.1 hrange.2
  obtain ⟨conn, hconn⟩ := Option.isSome_iff_exists.mp hroute
  refine ⟨e, conn, hleast, find?_server hconn, ?_⟩
  have hbound := lowerBound_eq h.sorted hleast
  unfold Router.getWorkerConnByPath
  rw [if_neg (not_not.mpr habs)]
  simp only [hashInt8, hbound, hconn]

/-! ## 2. A trailing slash -/

/-- The bytes behind the last slash. -/
def lastName (path : List Byte) : List Byte := path.drop ((findLastOf slash path).getD 0 + 1)

/-- **Both values belong to one server.** -/
def Router.SameServer (router : Router) (v v' : Int) : Prop :=
  ∃ e e', IsLeast router.shardTable v e ∧ IsLeast router.shardTable v' e' ∧ e.2 = e'.2

theorem exists_lastName {path : List Byte} (habs : path.head? = some slash)
    (hend : path.getLast? ≠ some slash) :
    ∃ pre name, path = pre ++ slash :: name ∧ name ≠ [] ∧ slash ∉ name := by
  have hmem : slash ∈ path.reverse := mem_reverse.mpr (mem_of_head? habs)
  obtain ⟨post, pre, hsplit, hpost⟩ := eq_append_cons_of_mem hmem
  have hpath : path = pre.reverse ++ slash :: post.reverse := by
    rw [← reverse_reverse path, hsplit]
    simp
  refine ⟨pre.reverse, post.reverse, hpath, ?_, by simpa using hpost⟩
  intro hnil
  rw [hpath, hnil, getLast?_concat] at hend
  exact hend rfl

/-- **Where a trailing slash leads.**  For every table that covers the hash values and every
absolute path that does not end in a slash, the path with a slash behind it has the same connection
if and only if the hash values of its last name without and with the slash belong to one server. -/
theorem trailing_slash_iff {router : Router} (h : router.Covers) (signedChar : Bool)
    {path : List Byte} (habs : path.head? = some slash) (hend : path.getLast? ≠ some slash) :
    router.getWorkerConnByPath signedChar (path ++ [slash]) =
        router.getWorkerConnByPath signedChar path ↔
      router.SameServer (hashOfName signedChar (lastName path ++ [0]))
        (hashOfName signedChar (lastName path ++ [slash, 0])) := by
  obtain ⟨pre, name, rfl, hne, hslash⟩ := exists_lastName habs hend
  have hname : lastName (pre ++ slash :: name) = name := by
    rw [lastName, findLastOf_append hslash, Option.getD_some, drop_behind]
  have hplain := filenameData_append hne hslash pre (.inl rfl)
  have hslashed := filenameData_append hne hslash pre (.inr rfl)
  rw [append_nil, append_nil] at hplain
  rw [append_assoc name] at hslashed
  obtain ⟨e, conn, hleast, hserver, hroute⟩ := h.route signedChar habs
  have habs' : (pre ++ slash :: name ++ [slash]).head? = some slash := by
    rw [head?_append, habs]
    rfl
  obtain ⟨e', conn', hleast', hserver', hroute'⟩ := h.route signedChar habs'
  rw [hplain] at hleast
  rw [hslashed] at hleast'
  rw [hroute, hroute', hname]
  constructor
  · intro hsame
    obtain rfl : conn' = conn := by simpa using hsame
    exact ⟨e, e', hleast, hleast', hserver.symm.trans hserver'⟩
  · rintro ⟨e₁, e₂, he₁, he₂, hsame⟩
    obtain rfl := he₁.unique h.sorted hleast
    obtain rfl := he₂.unique h.sorted hleast'
    have hconn : conn'.server = conn.server := by rw [hserver', hserver, hsame]
    rw [show conn' = conn from by cases conn; cases conn'; exact congrArg _ hconn]

/-- Two workers, each with a part of the hash values. -/
def twoRanges : Router where
  shardTable := [(1000000000, ⟨"a", 11, 1⟩), (int32Max, ⟨"b", 11, 2⟩)]
  routeMap := ⟨[(⟨"a", 11, 1⟩, ⟨⟨"a", 11, 1⟩⟩), (⟨"b", 11, 2⟩, ⟨⟨"b", 11, 2⟩⟩)], by decide⟩

theorem twoRanges_covers : twoRanges.Covers := by
  refine ⟨by unfold Sorted; decide, ?_⟩
  intro v _ hle
  by_cases hlow : v ≤ 1000000000
  · exact ⟨_, ⟨mem_cons_self, hlow, by simp [twoRanges, int32Max]⟩, rfl⟩
  · refine ⟨_, ⟨mem_cons_of_mem _ mem_cons_self, hle, ?_⟩, rfl⟩
    simp [twoRanges, hlow]

/-- With two workers `/a` goes to one of them and `/a/` to the other. -/
theorem trailing_slash_moves : twoRanges.Covers ∧
    twoRanges.getWorkerConnByPath true [slash, 97] = .ok (some ⟨⟨"a", 11, 1⟩⟩) ∧
    twoRanges.getWorkerConnByPath true [slash, 97, slash] = .ok (some ⟨⟨"b", 11, 2⟩⟩) :=
  ⟨twoRanges_covers, by decide +kernel, by decide +kernel⟩

theorem trailing_slash_iff_a :
    twoRanges.getWorkerConnByPath true ([slash, 97] ++ [slash]) =
        twoRanges.getWorkerConnByPath true [slash, 97] ↔
      twoRanges.SameServer (hashOfName true (lastName [slash, 97] ++ [0]))
        (hashOfName true (lastName [slash, 97] ++ [slash, 0])) :=
  trailing_slash_iff twoRanges_covers true (by decide) (by decide)

/-! ## 3. Fetching any reply -/

/-- The answer to the command: its rows, with the numbers that `StringToInt32` makes of their texts,
and for which servers `Channel::Init` succeeds while they are read; or the code of a failure. -/
inductive Reply
  | answer (rows : List Reported) (opens : ServerIdentifier → Bool)
      (int32 : ∀ row ∈ rows, row.rangeMin ≤ int32Max ∧ row.rangeMax ≤ int32Max)
  | failed (code : ErrorCode)

def Reply.isAnswer : Reply → Bool
  | .answer _ _ _ => true
  | .failed _ => false

/-- How a call ends.  `undefined` is a behaviour that C++ does not define: a signed overflow, or the
response of a command that failed. -/
inductive Outcome
  | done
  | serverFault
  | thrown (what : String)
  | undefined
  deriving DecidableEq

/-- What the constructor of `Connection` throws. -/
def failToInit (server : ServerIdentifier) : String :=
  "Fail to init channel to " ++ server.ip ++ ":" ++ toString server.port

/-- A server can be had: there is a connection to it, or its channel can be set up. -/
def Available (old : RouteMap) (opens : ServerIdentifier → Bool)
    (server : ServerIdentifier) : Prop :=
  (old.find? server).isSome ∨ opens server = true

instance (old : RouteMap) (opens : ServerIdentifier → Bool) (server : ServerIdentifier) :
    Decidable (Available old opens server) :=
  inferInstanceAs (Decidable (_ ∨ _))

/-- The loop of `FetchShardTable` and the check behind it, with the maps as they are left. -/
def fetchLoop (old : RouteMap) (opens : ServerIdentifier → Bool) :
    Fetch → List Reported → Fetch × Outcome
  | st, [] =>
    (st, if st.lastShardMaxValue ≠ int32Max then .thrown "shard table is corrupt" else .done)
  | st, row :: rows =>
    -- `port + 10` and `lastShardMaxValue + 1` are signed additions
    if int32Max < row.port + 10 ∨ st.lastShardMaxValue = int32Max then (st, .undefined)
    else
      match fetchRow old st row with
      | .error what => (st, .thrown what)
      | .ok next =>
        if Available old opens (serverOf row) then fetchLoop old opens next rows
        -- the range is in the shard table when the connection is made
        else ({ st with shardTable := next.shardTable }, .thrown (failToInit (serverOf row)))

/-- `FetchShardTable`: only `SERVER_FAULT` is looked for among the codes of the command. -/
def Router.fetchShardTable (router : Router) : Reply → Router × Outcome
  | .failed code => (router, if code = .serverFault then .serverFault else .undefined)
  | .answer rows opens _ =>
    let (st, outcome) := fetchLoop router.routeMap opens ⟨int32Min, [], empty⟩ rows
    (⟨st.shardTable, st.routeMap⟩, outcome)

/-- The end of the last range, given the rows read so far with the last one first. -/
def lastMax (done : List Reported) : Int := (done.head?.map Reported.rangeMax).getD int32Min

/-- A range that is taken for the first one leaves hash values below it that no row is for. -/
def Hole (row : Reported) (done : List Reported) : Prop :=
  0 < row.rangeMin ∧ lastMax done = int32Min ∧ ∀ r ∈ done, r.rangeMax ≠ row.rangeMin - 1

/-- No row leaves a hole; the last row is first. -/
def NoHole : List Reported → Prop
  | [] => True
  | row :: done => NoHole done ∧ ¬Hole row done

/-- Every row follows the one before it, up to `INT32_MAX`, and every server can be had. -/
def Chained (old : RouteMap) (opens : ServerIdentifier → Bool) : Int → List Reported → Prop
  | last, [] => last = int32Max
  | last, row :: rows => last ≠ int32Max ∧ row.port + 10 ≤ int32Max ∧
      (last = int32Min ∨ last + 1 = row.rangeMin) ∧ Available old opens (serverOf row) ∧
      Chained old opens row.rangeMax rows

/-- The replies that `FetchShardTable` takes or reports as a fault, given the connections that there
are. -/
def Reply.Accepted (old : RouteMap) : Reply → Prop
  | .failed code => code = .serverFault
  | .answer rows opens _ => Chained old opens int32Min rows

/-- **The replies that leave a router in order.** -/
def Reply.Fits (old : RouteMap) : Reply → Prop
  | .failed code => code = .serverFault
  | .answer rows opens _ => Chained old opens int32Min rows ∧
      (NoHole rows.reverse ∨ ∃ row ∈ rows, serverOf row = invalidServer)

/-- What the rows read so far have put into the maps. -/
structure Filling (done : List Reported) (st : Fetch) : Prop where
  sorted : Sorted st.shardTable
  known : ∀ e ∈ st.shardTable,
    e.2 = invalidServer ∨ ∃ row ∈ done, e = (row.rangeMax, serverOf row)
  keys : ∀ row ∈ done, ∃ server, (row.rangeMax, server) ∈ st.shardTable
  routes : ∀ server,
    (st.routeMap.find? server).isSome ↔ ∃ row ∈ done, server = serverOf row
  last : st.lastShardMaxValue = lastMax done
  top : ∀ e ∈ st.shardTable,
    e.1 ≤ int32Max ∧ (e.1 = int32Max → st.lastShardMaxValue = int32Max)
  real : NoHole done → ∀ e ∈ st.shardTable, 0 ≤ e.1 → ∃ row ∈ done, e.2 = serverOf row
  hole : ¬NoHole done → ∃ e ∈ st.shardTable, 0 ≤ e.1 ∧ e.2 = invalidServer

variable {done rows : List Reported} {st st' : Fetch} {old : RouteMap}
  {opens : ServerIdentifier → Bool}

theorem exists_mem_emplace {m : List (Int × ServerIdentifier)} (h : Sorted m) (k : Int)
    (v : ServerIdentifier) : ∃ v', (k, v') ∈ emplace m k v := by
  by_cases hk : ∃ e ∈ m, e.1 = k
  · obtain ⟨e, he, rfl⟩ := hk
    exact ⟨e.2, (mem_emplace h).mpr (.inl he)⟩
  · exact ⟨v, (mem_emplace h).mpr (.inr ⟨rfl, fun e he hek => hk ⟨e, he, hek⟩⟩)⟩

/-- **One row**: the entry in front of a first range, then the entry of the range. -/
theorem Filling.row (h : Filling done st) {row : Reported} (hlast : st.lastShardMaxValue ≠ int32Max)
    (hmin : row.rangeMin ≤ int32Max) (hmax : row.rangeMax ≤ int32Max)
    (hrow : fetchRow old st row = .ok st') : Filling (row :: done) st' := by
  obtain ⟨-, m, hsorted, rfl, hm⟩ := fetchRow_ok old hrow h.sorted
  -- what is new in front of the range stands at a key that no earlier range has
  have hnew : ∀ e ∈ m, e ∈ st.shardTable ∨ (e = (row.rangeMin - 1, invalidServer) ∧
      (NoHole (row :: done) → e.1 < 0)) := by
    intro e he
    refine ((hm e).mp he).imp_right ?_
    rintro ⟨hc, rfl, hfree⟩
    refine ⟨rfl, fun hno => ?_⟩
    by_contra hneg
    refine hno.2 ⟨by dsimp only at hneg; omega, h.last ▸ hc.1, ?_⟩
    intro r hr hkey
    obtain ⟨server, hserver⟩ := h.keys r hr
    exact hfree _ hserver hkey
  refine ⟨sorted_emplace hsorted _ _, ?_, ?_, ?_, rfl, ?_, ?_, ?_⟩
  · intro e he
    rcases (mem_emplace hsorted).mp he with he | ⟨rfl, -⟩
    · rcases hnew e he with he | ⟨rfl, -⟩
      · rcases h.known e he with hinv | ⟨r, hr, heq⟩
        · exact .inl hinv
        · exact .inr ⟨r, mem_cons_of_mem _ hr, heq⟩
      · exact .inl rfl
    · exact .inr ⟨row, mem_cons_self, rfl⟩
  · intro r hr
    rcases mem_cons.mp hr with rfl | hr
    · exact exists_mem_emplace hsorted _ _
    · obtain ⟨server, hserver⟩ := h.keys r hr
      exact ⟨server, (mem_emplace hsorted).mpr (.inl ((hm _).mpr (.inl hserver)))⟩
  · intro server
    rw [tryEmplace_isSome, h.routes, exists_mem_cons_iff]
  · intro e he
    rcases (mem_emplace hsorted).mp he with he | ⟨rfl, -⟩
    · rcases hnew e he with he | ⟨rfl, -⟩
      · obtain ⟨hle, heq⟩ := h.top e he
        exact ⟨hle, fun htop => absurd (heq htop) hlast⟩
      · exact ⟨by dsimp only; omega, fun htop => by dsimp only at htop; omega⟩
    · exact ⟨hmax, id⟩
  · intro hno e he hpos
    rcases (mem_emplace hsorted).mp he with he | ⟨rfl, -⟩
    · rcases hnew e he with he | ⟨-, hneg⟩
      · obtain ⟨r, hr, heq⟩ := h.real hno.1 e he hpos
        exact ⟨r, mem_cons_of_mem _ hr, heq⟩
      · exact absurd hpos (not_le.mpr (hneg hno))
    · exact ⟨row, mem_cons_self, rfl⟩
  · intro hhole
    suffices hin : ∃ e ∈ m, 0 ≤ e.1 ∧ e.2 = invalidServer by
      obtain ⟨e, he, hbad⟩ := hin
      exact ⟨e, (mem_emplace hsorted).mpr (.inl he), hbad⟩
    by_cases hno : NoHole done
    · -- the hole is this row's: its key is new, or was that of an earlier hole
      obtain ⟨hpos, hfirst, hfree⟩ := not_not.mp fun hn => hhole ⟨hno, hn⟩
      have hc : st.lastShardMaxValue = int32Min ∧ row.rangeMin ≠ int32Min :=
        ⟨h.last.trans hfirst, fun heq => by rw [heq] at hpos; exact absurd hpos (by decide)⟩
      by_cases hold : ∃ e ∈ st.shardTable, e.1 = row.rangeMin - 1
      · obtain ⟨e, he, hkey⟩ := hold
        refine ⟨e, (hm e).mpr (.inl he), by omega, ?_⟩
        rcases h.known e he with hinv | ⟨r, hr, rfl⟩
        · exact hinv
        · exact absurd hkey (hfree r hr)
      · push Not at hold
        exact ⟨_, (hm _).mpr (.inr ⟨hc, rfl, hold⟩), by dsimp only; omega, rfl⟩
    · obtain ⟨e, he, hbad⟩ := h.hole hno
      exact ⟨e, (hm e).mpr (.inl he), hbad⟩

theorem not_covers_of_below {router : Router} (h : ∀ e ∈ router.shardTable, e.1 < int32Max) :
    ¬router.Covers := by
  intro hc
  obtain ⟨e, hleast, -⟩ := hc.found int32Max (by decide) (le_refl _)
  exact absurd hleast.ge (not_le.mpr (h e hleast.mem))

/-- The maps of a loop that has not come to `INT32_MAX` are not in order. -/
theorem Filling.not_covers (h : Filling done st) (hlast : st.lastShardMaxValue ≠ int32Max) :
    ¬Router.Covers ⟨st.shardTable, st.routeMap⟩ := by
  refine not_covers_of_below ?_
  intro e he
  exact lt_of_le_of_ne (h.top e he).1 fun htop => hlast ((h.top e he).2 htop)

/-- **A row whose server cannot be had** leaves maps that are not in order: they do not reach
`INT32_MAX`, or they reach it with this server, to which there is no connection. -/
theorem Filling.not_covers_of_unavailable (h : Filling done st)
    (hopen : ∀ r ∈ done, Available old opens (serverOf r)) {row : Reported}
    (hlast : st.lastShardMaxValue ≠ int32Max) (hmin : row.rangeMin ≤ int32Max)
    (hmax : row.rangeMax ≤ int32Max) (hrow : fetchRow old st row = .ok st')
    (hfail : ¬Available old opens (serverOf row)) :
    ¬Router.Covers ⟨st'.shardTable, st.routeMap⟩ := by
  have h' := h.row hlast hmin hmax hrow
  have hnext : st'.lastShardMaxValue = row.rangeMax := h'.last
  by_cases htop : row.rangeMax = int32Max
  · intro hc
    obtain ⟨e, hleast, hroute⟩ := hc.found int32Max (by decide) (le_refl _)
    have hkey : e.1 = int32Max := le_antisymm (h'.top e hleast.mem).1 hleast.ge
    -- the entry at `INT32_MAX` is new, so it is the row's
    have hserver : e.2 = serverOf row := by
      obtain ⟨-, m, hsorted, rfl, hm⟩ := fetchRow_ok old hrow h.sorted
      rcases (mem_emplace hsorted).mp hleast.mem with he | ⟨rfl, -⟩
      · rcases (hm e).mp he with he | ⟨-, rfl, -⟩
        · exact absurd ((h.top e he).2 hkey) hlast
        · dsimp only at hkey
          omega
      · rfl
    rw [hserver] at hroute
    obtain ⟨r, hr, heq⟩ := (h.routes _).mp hroute
    exact hfail (heq ▸ hopen r hr)
  · refine not_covers_of_below ?_
    intro e he
    exact lt_of_le_of_ne (h'.top e he).1 fun hend => htop (hnext ▸ (h'.top e he).2 hend)

/-- **The loop, over any rows.**  It comes to its end exactly on the chained ones; where it throws,
the maps it leaves are not in order. -/
theorem fetchLoop_spec (old : RouteMap) (opens : ServerIdentifier → Bool) :
    ∀ (rows done : List Reported) (st : Fetch), Filling done st →
    (∀ r ∈ done, Available old opens (serverOf r)) →
    (∀ row ∈ rows, row.rangeMin ≤ int32Max ∧ row.rangeMax ≤ int32Max) →
    (Chained old opens st.lastShardMaxValue rows ∧ (fetchLoop old opens st rows).2 = .done ∧
        Filling (rows.reverse ++ done) (fetchLoop old opens st rows).1 ∧
        lastMax (rows.reverse ++ done) = int32Max) ∨
      (¬Chained old opens st.lastShardMaxValue rows ∧
        ((fetchLoop old opens st rows).2 = .undefined ∨
          ((∃ what, (fetchLoop old opens st rows).2 = .thrown what) ∧
            ¬Router.Covers ⟨(fetchLoop old opens st rows).1.shardTable,
              (fetchLoop old opens st rows).1.routeMap⟩))) := by
  intro rows
  induction rows with
  | nil =>
    intro done st h _ _
    unfold fetchLoop Chained
    by_cases hend : st.lastShardMaxValue = int32Max
    · exact .inl ⟨hend, if_neg (not_not.mpr hend), h, h.last ▸ hend⟩
    · exact .inr ⟨hend, Or.inr ⟨⟨_, if_pos hend⟩, h.not_covers hend⟩⟩
  | cons row rows ih =>
    intro done st h hopen hint
    unfold fetchLoop Chained
    by_cases hover : int32Max < row.port + 10 ∨ st.lastShardMaxValue = int32Max
    · rw [if_pos hover]
      exact .inr ⟨fun hc => by omega, Or.inl rfl⟩
    rw [if_neg hover]
    push Not at hover
    obtain ⟨hport, hlast⟩ := hover
    obtain ⟨hmin, hmax⟩ := hint row mem_cons_self
    cases hrow : fetchRow old st row with
    | error what =>
      refine .inr ⟨?_, Or.inr ⟨⟨what, rfl⟩, h.not_covers hlast⟩⟩
      rintro ⟨-, -, hnext, -⟩
      unfold fetchRow at hrow
      split at hrow
      · rename_i hgap
        exact hnext.elim hgap.1 hgap.2
      · cases hrow
    | ok st₁ =>
      dsimp only
      by_cases hserver : Available old opens (serverOf row)
      · rw [if_pos hserver]
        have ih := ih (row :: done) st₁ (h.row hlast hmin hmax hrow)
          (forall_mem_cons.mpr ⟨hserver, hopen⟩) fun r hr => hint r (mem_cons_of_mem _ hr)
        obtain ⟨hnext, m, -, rfl, -⟩ := fetchRow_ok old hrow h.sorted
        rw [reverse_cons, append_assoc]
        rcases ih with ⟨hchain, hrest⟩ | ⟨hchain, hrest⟩
        · exact .inl ⟨⟨hlast, hport, hnext, hserver, hchain⟩, hrest⟩
        · exact .inr ⟨fun hc => hchain hc.2.2.2.2, hrest⟩
      · rw [if_neg hserver]
        have hcut := h.not_covers_of_unavailable hopen hlast hmin hmax hrow hserver
        exact .inr ⟨fun hc => hserver hc.2.2.2.1, Or.inr ⟨⟨_, rfl⟩, hcut⟩⟩

/-- A table that ends at `INT32_MAX` is in order if and only if no hole is left in it. -/
theorem Filling.covers_iff (h : Filling done st) (hend : lastMax done = int32Max) :
    Router.Covers ⟨st.shardTable, st.routeMap⟩ ↔
      NoHole done ∨ ∃ row ∈ done, serverOf row = invalidServer := by
  constructor
  · intro hc
    by_contra hbad
    push Not at hbad
    obtain ⟨e, he, hpos, hinv⟩ := h.hole hbad.1
    obtain ⟨e', hleast, hroute⟩ := hc.found e.1 hpos (h.top e he).1
    obtain rfl := hleast.unique h.sorted ⟨he, le_refl _, fun _ _ hle => hle⟩
    obtain ⟨row, hrow, hserver⟩ := (h.routes _).mp hroute
    exact hbad.2 row hrow (hserver.symm.trans hinv)
  · intro hno
    refine ⟨h.sorted, ?_⟩
    intro v hpos hle
    obtain ⟨row, hrow, hmax⟩ : ∃ row ∈ done, row.rangeMax = int32Max := by
      cases done with
      | nil => exact absurd hend (by decide)
      | cons row done => exact ⟨row, mem_cons_self, hend⟩
    obtain ⟨server, hserver⟩ := h.keys row hrow
    obtain ⟨e, hleast⟩ := exists_isLeast h.sorted hserver (hmax.symm ▸ hle)
    refine ⟨e, hleast, (h.routes _).mpr ?_⟩
    rcases hno with hno | ⟨r, hr, hinv⟩
    · exact h.real hno e hleast.mem (hpos.trans hleast.ge)
    · rcases h.known e hleast.mem with heq | ⟨r', hr', heq⟩
      · exact ⟨r, hr, heq.trans hinv.symm⟩
      · exact ⟨r', hr', by rw [heq]⟩

/-- **What a fetch should do**: put a table in order in place, or report a failure and leave the
maps as they were. -/
def Kept (router : Router) (after : Router × Outcome) : Prop :=
  (after.2 = .done ∧ after.1.Covers) ∨
    ((after.2 = .serverFault ∨ ∃ what, after.2 = .thrown what) ∧ after.1 = router)

theorem filling_nil : Filling [] ⟨int32Min, [], empty⟩ where
  sorted := List.Pairwise.nil
  known := nofun
  keys := nofun
  routes := by simp [RouteMap.empty, RouteMap.find?]
  last := rfl
  top := nofun
  real := nofun
  hole h := absurd trivial h

/-- **What a fetch comes to.**  A reply that is accepted is a fault that changes nothing, or puts
maps in place that are in order exactly if it fits; any other ends in an exception with maps that
are not in order, or in something undefined. -/
theorem fetchShardTable_cases (router : Router) (reply : Reply) :
    (reply.Accepted router.routeMap ∧
        (((router.fetchShardTable reply).2 = .serverFault ∧
            (router.fetchShardTable reply).1 = router ∧ reply = .failed .serverFault) ∨
          ((router.fetchShardTable reply).2 = .done ∧ reply ≠ .failed .serverFault ∧
            ((router.fetchShardTable reply).1.Covers ↔ reply.Fits router.routeMap)))) ∨
      (¬reply.Accepted router.routeMap ∧ ((router.fetchShardTable reply).2 = .undefined ∨
        ((∃ what, (router.fetchShardTable reply).2 = .thrown what) ∧
          ¬(router.fetchShardTable reply).1.Covers))) := by
  cases reply with
  | failed code =>
    by_cases hcode : code = .serverFault
    · exact .inl ⟨hcode, Or.inl ⟨if_pos hcode, rfl, by rw [hcode]⟩⟩
    · exact .inr ⟨hcode, Or.inl (if_neg hcode)⟩
  | answer rows opens hint =>
    rcases fetchLoop_spec router.routeMap opens rows [] _ filling_nil nofun hint with
      ⟨hchain, hdone, hfill, hend⟩ | ⟨hchain, hbad⟩
    · refine .inl ⟨hchain, Or.inr ⟨hdone, nofun, (hfill.covers_iff hend).trans ?_⟩⟩
      simp only [append_nil, mem_reverse]
      exact ⟨fun h => ⟨hchain, h⟩, fun h => h.2⟩
    · exact .inr ⟨hchain, hbad⟩

theorem Reply.Fits.accepted {reply : Reply} (h : reply.Fits old) : reply.Accepted old := by
  cases reply with
  | failed code => exact h
  | answer rows opens hint => exact h.1

theorem kept_of_fits (router : Router) {reply : Reply} (h : reply.Fits router.routeMap) :
    Kept router (router.fetchShardTable reply) := by
  rcases fetchShardTable_cases router reply with
    ⟨-, ⟨hfault, hsame, -⟩ | ⟨hdone, -, hcovers⟩⟩ | hbad
  · exact .inr ⟨Or.inl hfault, hsame⟩
  · exact .inl ⟨hdone, hcovers.mpr h⟩
  · exact absurd h.accepted hbad.1

theorem fits_of_kept {router : Router} (hc : router.Covers) {reply : Reply}
    (h : Kept router (router.fetchShardTable reply)) : reply.Fits router.routeMap := by
  rcases fetchShardTable_cases router reply with
    ⟨-, ⟨-, -, rfl⟩ | ⟨hdone, -, hcovers⟩⟩ | ⟨-, hundef | ⟨⟨what, hthrown⟩, hcut⟩⟩
  · rfl
  · rcases h with ⟨-, h⟩ | ⟨hfault | ⟨what, hthrown⟩, -⟩
    · exact hcovers.mp h
    · exact nomatch hdone.symm.trans hfault
    · exact nomatch hdone.symm.trans hthrown
  · rcases h with ⟨hdone, -⟩ | ⟨hfault | ⟨what, hthrown⟩, -⟩
    · exact nomatch hundef.symm.trans hdone
    · exact nomatch hundef.symm.trans hfault
    · exact nomatch hundef.symm.trans hthrown
  · -- the maps are not in order, so they are not the old ones either
    rcases h with ⟨hdone, -⟩ | ⟨-, hsame⟩
    · exact nomatch hthrown.symm.trans hdone
    · rw [hsame] at hcut
      exact absurd hc hcut

/-! ## 4. A worker that does not answer -/

def retryCnt : Nat := 3

def Router.getWorkerConnBySvrId (router : Router) (id : Int) : Option Connection :=
  (router.routeMap.entries.map Prod.snd).find? fun conn => id = conn.server.id

/-- How `TryToUpdateWorkerConn` ends. -/
inductive Update
  | returned (conn : Connection)
  | thrown (what : String)
  | undefined
  deriving DecidableEq

/-- What a round meets: the reply to its first fetch, and the one to the second fetch, which goes to
the coordinator that `TryToUpdateCNConn` has found; a new connection to it may fail as well, and
that is an exception. -/
structure Round where
  first : Reply
  second : Except String Reply

/-- A call: the fetches it makes, each with the router that it is made on, and what it comes to. -/
structure Course where
  fetches : List (Router × Reply)
  router : Router
  result : Update

def Course.after (fetches : List (Router × Reply)) (c : Course) : Course :=
  { c with fetches := fetches ++ c.fetches }

/-- One fetch, and what follows it; `fault` is what is done when the coordinator does not answer. -/
def fetchThen (router : Router) (reply : Reply) (next fault : Router → Course) : Course :=
  let fetched := router.fetchShardTable reply
  Course.after [(router, reply)]
    (match fetched.2 with
    | .thrown what => ⟨[], fetched.1, .thrown what⟩
    | .undefined => ⟨[], fetched.1, .undefined⟩
    | .serverFault => fault fetched.1
    | .done => next fetched.1)

/-- The loop of `TryToUpdateWorkerConn`. -/
def updateRounds (conn : Connection) : List Round → Router → Course
  | [], router => ⟨[], router, .returned conn⟩
  | round :: rest, router =>
    match router.getWorkerConnBySvrId conn.server.id with
    | none => ⟨[], router, .thrown "not found server by id."⟩
    | some newConn =>
      if newConn.server ≠ conn.server then ⟨[], router, .returned newConn⟩
      else
        fetchThen router round.first (updateRounds conn rest) fun router =>
          match round.second with
          | .error what => ⟨[], router, .thrown what⟩
          -- what the second fetch returns is not looked at
          | .ok second => fetchThen router second (updateRounds conn rest) (updateRounds conn rest)

def Router.tryToUpdateWorkerConn (router : Router) (conn : Connection) (rounds : Nat → Round) :
    Course :=
  updateRounds conn ((List.range (retryCnt + 1)).map rounds) router

/-- **What the call should do**: leave maps in order, or report a failure and leave the maps as they
were. -/
def Course.Kept (router : Router) (c : Course) : Prop :=
  (c.result ≠ .undefined ∧ c.router.Covers) ∨
    ((∃ what, c.result = .thrown what) ∧ c.router = router)

/-- The table that the fetches put in place last, with the router it replaced. -/
def lastTable (fetches : List (Router × Reply)) : Option (Router × Reply) :=
  (fetches.filter fun f => f.2.isAnswer).getLast?

/-- Every reply is accepted, and the table that was put in place last fits. -/
structure FetchesFit (fetches : List (Router × Reply)) : Prop where
  accepted : ∀ f ∈ fetches, f.2.Accepted f.1.routeMap
  last : ∀ f, lastTable fetches = some f → f.2.Fits f.1.routeMap

/-- What a loop leaves, for a router that need not be in order: it is defined and the maps are in
order exactly if all replies are accepted and the last table fits, or there is none and the maps
were in order before. -/
def Course.Exact (router : Router) (c : Course) : Prop :=
  (c.result ≠ .undefined ∧ c.router.Covers) ↔
    (∀ f ∈ c.fetches, f.2.Accepted f.1.routeMap) ∧
      match lastTable c.fetches with
      | none => router.Covers
      | some f => f.2.Fits f.1.routeMap

theorem lastTable_cons (f : Router × Reply) (fetches : List (Router × Reply)) :
    lastTable (f :: fetches) = (lastTable fetches).or (lastTable [f]) := by
  unfold lastTable
  rw [filter_cons, filter_cons]
  split
  · rw [getLast?_cons, filter_nil, getLast?_singleton]
    cases (fetches.filter fun f => f.2.isAnswer).getLast? <;> rfl
  · rw [filter_nil, getLast?_nil, Option.or_none]

/-- **One fetch of the call**: what follows it is exact, so all of it is. -/
theorem exact_fetchThen {router : Router} {reply : Reply} {next fault : Router → Course}
    (hnext : ∀ router, (next router).Exact router)
    (hfault : ∀ router, (fault router).Exact router) :
    (fetchThen router reply next fault).Exact router := by
  unfold Course.Exact fetchThen Course.after
  dsimp only
  rcases fetchShardTable_cases router reply with
    ⟨haccepted, ⟨houtcome, hsame, rfl⟩ | ⟨houtcome, hanswer, hcovers⟩⟩ |
      ⟨hrefused, houtcome | ⟨⟨what, houtcome⟩, hcut⟩⟩
  · -- a fault: the same router, and no table
    rw [houtcome]
    dsimp only
    have hrest := hfault router
    unfold Course.Exact at hrest
    have hnone : lastTable [(router, Reply.failed .serverFault)] = none := rfl
    rw [hsame, singleton_append, lastTable_cons, forall_mem_cons, and_iff_right haccepted, hrest,
      hnone, Option.or_none]
  · rw [houtcome]
    dsimp only
    have hrest := hnext (router.fetchShardTable reply).1
    unfold Course.Exact at hrest
    rw [singleton_append, lastTable_cons, forall_mem_cons, and_iff_right haccepted, hrest]
    obtain ⟨rows, opens, hint, rfl⟩ : ∃ rows opens hint, reply = .answer rows opens hint := by
      cases reply with
      | failed code => exact absurd (congrArg Reply.failed haccepted) hanswer
      | answer rows opens hint => exact ⟨rows, opens, hint, rfl⟩
    have hsome (h) : lastTable [(router, Reply.answer rows opens h)] =
        some (router, .answer rows opens h) := rfl
    rw [hsome]
    cases lastTable (next (router.fetchShardTable (.answer rows opens hint)).1).fetches with
    | none =>
      dsimp only [Option.none_or]
      rw [hcovers]
    | some f => rfl
  · rw [houtcome]
    dsimp only
    refine ⟨fun h => absurd rfl h.1, fun h => ?_⟩
    exact absurd (h.1 _ mem_cons_self) hrefused
  · rw [houtcome]
    dsimp only
    refine ⟨fun h => absurd h.2 hcut, fun h => ?_⟩
    exact absurd (h.1 _ mem_cons_self) hrefused

/-- Without a fetch the maps are as they were. -/
theorem exact_nil {router : Router} {result : Update} (h : result ≠ .undefined) :
    Course.Exact router ⟨[], router, result⟩ :=
  ⟨fun hc => ⟨nofun, hc.2⟩, fun hc => ⟨h, hc.2⟩⟩

theorem exact_updateRounds (conn : Connection) :
    ∀ (rounds : List Round) (router : Router), (updateRounds conn rounds router).Exact router := by
  intro rounds
  induction rounds with
  | nil =>
    intro router
    exact exact_nil nofun
  | cons round rest ih =>
    intro router
    unfold updateRounds
    split
    · exact exact_nil nofun
    split
    · exact exact_nil nofun
    refine exact_fetchThen ih ?_
    intro router
    split
    · exact exact_nil nofun
    · exact exact_fetchThen ih ih

/-- **Which replies are safe.**  A reply that fits puts a table in order in place, or is a fault
that is reported and changes nothing; on a router in order no other reply does either.  And
`TryToUpdateWorkerConn` keeps a router in order exactly if all the replies that it comes to are
accepted and the last table among them fits. -/
theorem fetch_keeps_maps (router : Router) :
    (∀ reply : Reply,
      (reply.Fits router.routeMap → Kept router (router.fetchShardTable reply)) ∧
      (router.Covers → Kept router (router.fetchShardTable reply) →
        reply.Fits router.routeMap)) ∧
    ∀ (conn : Connection) (rounds : Nat → Round), router.Covers →
      ((router.tryToUpdateWorkerConn conn rounds).Kept router ↔
        FetchesFit (router.tryToUpdateWorkerConn conn rounds).fetches) := by
  refine ⟨fun reply => ⟨kept_of_fits router, fun hc => fits_of_kept hc⟩, ?_⟩
  intro conn rounds hc
  have hexact := exact_updateRounds conn ((List.range (retryCnt + 1)).map rounds) router
  change Course.Exact router (router.tryToUpdateWorkerConn conn rounds) at hexact
  generalize router.tryToUpdateWorkerConn conn rounds = course at hexact
  have hkept : course.Kept router ↔ course.result ≠ .undefined ∧ course.router.Covers := by
    refine ⟨?_, Or.inl⟩
    rintro (h | ⟨⟨what, hthrown⟩, hsame⟩)
    · exact h
    · exact ⟨by rw [hthrown]; nofun, hsame ▸ hc⟩
  unfold Course.Exact at hexact
  rw [hkept, hexact]
  constructor
  · rintro ⟨haccepted, hlast⟩
    refine ⟨haccepted, ?_⟩
    intro f hf
    rwa [hf] at hlast
  · rintro ⟨haccepted, hlast⟩
    refine ⟨haccepted, ?_⟩
    split
    · exact hc
    · rename_i f hf
      exact hlast f hf

/-- The first worker has moved to another host; its channel can be set up. -/
def movedReply : Reply :=
  .answer [⟨0, 1000000000, "c", 1, 1⟩, ⟨1000000001, int32Max, "b", 1, 2⟩] (fun _ => true)
    (by decide)

/-- A fault, and the table of the second coordinator: the call returns the worker's new address. -/
theorem fetch_keeps_maps_moved :
    Kept twoRanges (twoRanges.fetchShardTable movedReply) ∧
      (twoRanges.tryToUpdateWorkerConn ⟨⟨"a", 11, 1⟩⟩
          fun _ => ⟨.failed .serverFault, .ok movedReply⟩).Kept twoRanges ∧
      (twoRanges.tryToUpdateWorkerConn ⟨⟨"a", 11, 1⟩⟩
          fun _ => ⟨.failed .serverFault, .ok movedReply⟩).result =
        .returned ⟨⟨"c", 11, 1⟩⟩ := by
  have hfits : movedReply.Fits twoRanges.routeMap := by
    refine ⟨⟨by decide, by decide, .inl rfl, .inr rfl, by decide, by decide, .inr rfl, .inr rfl,
      rfl⟩, .inl ⟨⟨trivial, ?_⟩, ?_⟩⟩
    · exact fun h => absurd h.1 (by decide)
    · exact fun h => absurd h.2.1 (by decide)
  refine ⟨((fetch_keeps_maps twoRanges).1 movedReply).1 hfits,
    ((fetch_keeps_maps twoRanges).2 _ _ twoRanges_covers).mpr ⟨?_, ?_⟩, by decide⟩
  · intro f hf
    rcases mem_cons.mp hf with rfl | hf
    · rfl
    · cases mem_singleton.mp hf
      exact hfits.accepted
  · intro f hf
    cases hf
    exact hfits

/-- **A reply with a gap**: the error is reported when the old maps are gone and the new ones have
one range. -/
theorem gap_clears_maps : twoRanges.Covers ∧
    ¬Kept twoRanges (twoRanges.fetchShardTable
      (.answer [⟨0, 10, "a", 1, 1⟩, ⟨12, int32Max, "b", 1, 2⟩] (fun _ => true) (by decide))) := by
  refine ⟨twoRanges_covers, ?_⟩
  intro h
  have hchain := (fits_of_kept twoRanges_covers h).1
  simp [Chained, int32Min] at hchain

end FalconFS.Client
