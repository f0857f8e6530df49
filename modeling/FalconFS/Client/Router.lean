/-
# The router of the client

The client fetches the shard table as a list of ranges and keeps it as a `std::map` from the upper
end of a range to a server.  To route a path it cuts off the last component, hashes it with its
own copies of the server's functions and looks for the first range that ends at or behind the hash
value.

The two sides share no code, and the client's table is not the server's: it has an entry for an
invalid server in front of the first range, and `emplace` does not overwrite.  What saves the
agreement is that hash values are not negative and that this entry's key always is (`Fetched`).
`route_agrees` is the result, for every table and every path.

A path arrives as a `std::string_view` of a `std::string`, and `HashPartId` is given its pointer,
not its length.  So what is hashed is the memory up to the terminating NUL; the model keeps it
that way.
-/
import FalconFS.Metadb.ShardTable

namespace FalconFS.Client

open OrderedMap ShardTable List Option

/-! ## 1. Hashing -/

def rotateLeft32 (word : BitVec 32) (n : Nat) : BitVec 32 := (word <<< n) ||| (word >>> (32 - n))

/-- The client's copy of PostgreSQL's `hash_bytes_uint32`. -/
def hashBytesUint32 (k : BitVec 32) : BitVec 32 :=
  let c := 0x9e3779b9#32 + 4 + 3923095
  let b := c
  let a := c + k
  let c := (c ^^^ b) - rotateLeft32 b 14
  let a := (a ^^^ c) - rotateLeft32 c 11
  let b := (b ^^^ a) - rotateLeft32 a 25
  let c := (c ^^^ b) - rotateLeft32 b 16
  let a := (a ^^^ c) - rotateLeft32 c 4
  let b := (b ^^^ a) - rotateLeft32 a 14
  (c ^^^ b) - rotateLeft32 b 24

def hashInt8 (val : BitVec 64) : Int := hashInt64 hashBytesUint32 val

/-- The client's `StrnLen`: `while (maxLen-- > 0 && *p) p++`. -/
def strnLen : List Byte → Nat → Nat
  | _, 0 => 0
  | [], _ + 1 => 0
  | c :: str, maxLen + 1 => if c != 0 then strnLen str maxLen + 1 else 0

def filenameLength : Nat := 256

/-- The client's `HashPartId`. -/
def clientHashPartId (signedChar : Bool) (fileName : List Byte) : BitVec 16 :=
  (fileName.take (strnLen fileName filenameLength)).foldl (mixChar signedChar) 0 &&& 0x1FFF

theorem strnLen_eq : ∀ (str : List Byte) (maxLen : Nat), strnLen str maxLen = strnlen str maxLen
  | str, 0 => by simp [strnLen, strnlen]
  | [], maxLen + 1 => by simp [strnLen, strnlen]
  | c :: str, maxLen + 1 => by
    have ih := strnLen_eq str maxLen
    unfold strnlen at ih ⊢
    rw [strnLen, take_succ_cons, takeWhile_cons]
    split
    · rw [length_cons, ih]
    · rfl

theorem clientHashPartId_eq (signedChar : Bool) (fileName : List Byte) :
    clientHashPartId signedChar fileName = hashPartId signedChar fileName := by
  unfold clientHashPartId hashPartId
  rw [strnLen_eq]
  rfl

/-! ## 2. The route table -/

structure ServerIdentifier where
  ip : String
  port : Int
  id : Int
  deriving DecidableEq, Repr

/-- A connection, as far as routing goes. -/
structure Connection where
  server : ServerIdentifier
  deriving DecidableEq, Repr

/-- `routeMap`: every connection is to the server it is kept under. -/
structure RouteMap where
  entries : List (ServerIdentifier × Connection)
  own : ∀ e ∈ entries, e.2.server = e.1

namespace RouteMap

def empty : RouteMap := ⟨[], fun _ h => nomatch h⟩

def find? (m : RouteMap) (server : ServerIdentifier) : Option Connection :=
  (m.entries.find? fun e => e.1 == server).map Prod.snd

theorem find?_server {m : RouteMap} {server : ServerIdentifier} {conn : Connection}
    (h : m.find? server = some conn) : conn.server = server := by
  obtain ⟨e, he, rfl⟩ := map_eq_some_iff.mp h
  have hkey := @find?_some _ _ _ _ he
  rw [m.own e (mem_of_find?_eq_some he)]
  exact eq_of_beq hkey

/-- The connection that `FetchShardTable` keeps for a server: the old one, or a new one.  That the
channel of a new one cannot be set up is a case of `RouterTable.lean`. -/
def connectionFor (old : RouteMap) (server : ServerIdentifier) : Connection :=
  (old.find? server).getD ⟨server⟩

theorem connectionFor_server (old : RouteMap) (server : ServerIdentifier) :
    (old.connectionFor server).server = server := by
  unfold connectionFor
  cases h : old.find? server with
  | none => rfl
  | some conn => exact find?_server h

/-- `routeMap.try_emplace` of the connection for a server. -/
def tryEmplace (m old : RouteMap) (server : ServerIdentifier) : RouteMap where
  entries := if (m.find? server).isSome then m.entries
    else m.entries ++ [(server, old.connectionFor server)]
  own := by
    intro e he
    split at he
    · exact m.own e he
    · rcases mem_append.mp he with he | he
      · exact m.own e he
      · rw [mem_singleton] at he
        rw [he]
        exact connectionFor_server old server

theorem tryEmplace_isSome (m old : RouteMap) (server server' : ServerIdentifier) :
    ((m.tryEmplace old server).find? server').isSome ↔
      server' = server ∨ (m.find? server').isSome := by
  unfold tryEmplace
  split
  · rename_i hs
    constructor
    · exact .inr
    · rintro (rfl | h)
      · exact hs
      · exact h
  · simp only [find?, isSome_map, find?_append, isSome_or, Bool.or_eq_true]
    rw [or_comm, find?_singleton]
    simp [eq_comm (a := server)]

end RouteMap

/-- The variables of the loop of `FetchShardTable`. -/
structure Fetch where
  lastShardMaxValue : Int
  shardTable : List (Int × ServerIdentifier)
  routeMap : RouteMap

def serverOf (row : Reported) : ServerIdentifier := ⟨row.host, row.port + 10, row.serverId⟩

def invalidServer : ServerIdentifier := ⟨"", 0, -1⟩

/-- The body of the loop of `FetchShardTable`. -/
def fetchRow (old : RouteMap) (st : Fetch) (row : Reported) : Except String Fetch :=
  if st.lastShardMaxValue ≠ int32Min ∧ st.lastShardMaxValue + 1 ≠ row.rangeMin then
    .error "shard table is corrupt"
  else
    let shardTable :=
      if st.lastShardMaxValue = int32Min ∧ row.rangeMin ≠ int32Min then
        emplace st.shardTable (row.rangeMin - 1) invalidServer
      else st.shardTable
    .ok ⟨row.rangeMax, emplace shardTable row.rangeMax (serverOf row),
      st.routeMap.tryEmplace old (serverOf row)⟩

def fetchRows (old : RouteMap) : Fetch → List Reported → Except String Fetch
  | st, [] => .ok st
  | st, row :: rows =>
    match fetchRow old st row with
    | .error e => .error e
    | .ok st => fetchRows old st rows

structure Router where
  shardTable : List (Int × ServerIdentifier)
  routeMap : RouteMap

/-- `FetchShardTable`, with the route map of the previous fetch. -/
def fetchShardTable (old : RouteMap) (response : List Reported) : Except String Router :=
  match fetchRows old ⟨int32Min, [], RouteMap.empty⟩ response with
  | .error e => .error e
  | .ok st =>
    if st.lastShardMaxValue ≠ int32Max then .error "shard table is corrupt"
    else .ok ⟨st.shardTable, st.routeMap⟩

/-! ## 3. Routing a path -/

def slash : Byte := 47

/-- `std::string_view::find_last_of`. -/
def findLastOf (c : Byte) : List Byte → Option Nat
  | [] => none
  | b :: str =>
    match findLastOf c str with
    | some i => some (i + 1)
    | none => if b = c then some 0 else none

/-- The memory that `filename.data()` points to.  The view is cut at a trailing slash, the memory is
not. -/
def filenameData (path : List Byte) : List Byte :=
  let view := if 1 < path.length ∧ path.getLast? = some slash then path.dropLast else path
  let lastSlash := (findLastOf slash view).getD 0
  let dir := view.take (if lastSlash ≠ 0 then lastSlash - 1 else 0)
  let filename := view.drop (lastSlash + 1)
  if filename = [] ∧ dir = [] then [slash, 0] else (path ++ [0]).drop (lastSlash + 1)

/-- `Router::GetWorkerConnByPath`; `none` is the null pointer. -/
def Router.getWorkerConnByPath (router : Router) (signedChar : Bool) (path : List Byte) :
    Except String (Option Connection) :=
  if path.head? ≠ some slash then .ok none
  else
    let partId := clientHashPartId signedChar (filenameData path)
    match lowerBound router.shardTable (hashInt8 (partId.zeroExtend 64)) with
    | none => .error "shard table is corrupt. cannot find target."
    | some e =>
      match router.routeMap.find? e.2 with
      | some conn => .ok (some conn)
      | none => .error "no such server."

/-! ## 4. The fetched table -/

/-- The server that a row of the shard table becomes on the client. -/
def serverOfRow (info : Int → String × Int) (r : Row) : ServerIdentifier :=
  ⟨(info r.serverId).1, (info r.serverId).2 + 10, r.serverId⟩

/-- After the rows `done`: from key 0 on the map has exactly their entries, and each of their
servers has a connection. -/
structure Fetched (info : Int → String × Int) (done : List Row) (st : Fetch) : Prop where
  sorted : Sorted st.shardTable
  entries : ∀ k server, 0 ≤ k →
    ((k, server) ∈ st.shardTable ↔ ∃ r ∈ done, r.rangePoint = k ∧ server = serverOfRow info r)
  routes : ∀ r ∈ done, (st.routeMap.find? (serverOfRow info r)).isSome

/-- What the loop knows of the next range: it begins behind the last one, or there is no last one
and it begins at or below 0. -/
def Follows (last rangeLow : Int) : Prop :=
  (last = int32Min ∧ rangeLow ≤ 0) ∨ (last ≠ int32Min ∧ last + 1 = rangeLow)

theorem follows_next (r : Row) : Follows r.rangePoint (r.rangePoint + 1) := by
  by_cases h : r.rangePoint = int32Min
  · exact .inl ⟨h, by rw [h]; decide⟩
  · exact .inr ⟨h, rfl⟩

section Fetching

variable {info : Int → String × Int} (old : RouteMap) {done : List Row} {st : Fetch}

/-- **A row that is taken**: the entry in front of a first range, if its key is free, and then the
entry of the range. -/
theorem fetchRow_ok {st' : Fetch} {row : Reported} (hrow : fetchRow old st row = .ok st')
    (hst : Sorted st.shardTable) :
    (st.lastShardMaxValue = int32Min ∨ st.lastShardMaxValue + 1 = row.rangeMin) ∧
      ∃ m, Sorted m ∧ st' = ⟨row.rangeMax, emplace m row.rangeMax (serverOf row),
        st.routeMap.tryEmplace old (serverOf row)⟩ ∧
      ∀ e, e ∈ m ↔ e ∈ st.shardTable ∨
        ((st.lastShardMaxValue = int32Min ∧ row.rangeMin ≠ int32Min) ∧
          e = (row.rangeMin - 1, invalidServer) ∧
            ∀ e' ∈ st.shardTable, e'.1 ≠ row.rangeMin - 1) := by
  unfold fetchRow at hrow
  split at hrow
  · cases hrow
  · rename_i hnext
    cases hrow
    refine ⟨by omega, _, ?_, rfl, fun e => ?_⟩
    · split
      · exact sorted_emplace hst _ _
      · exact hst
    · split
      · rename_i hc
        rw [mem_emplace hst]
        simp [hc]
      · rename_i hc
        simp [hc]

/-- **One row of the answer.** -/
theorem Fetched.row (h : Fetched info done st) {r : Row} {rangeLow : Int}
    (hf : Follows st.lastShardMaxValue rangeLow)
    (habove : ∀ r' ∈ done, r'.rangePoint < r.rangePoint) :
    ∃ st', fetchRow old st ⟨rangeLow, r.rangePoint, (info r.serverId).1, (info r.serverId).2,
        r.serverId⟩ = .ok st' ∧ st'.lastShardMaxValue = r.rangePoint ∧
      Fetched info (done ++ [r]) st' := by
  have hvalid : ¬(st.lastShardMaxValue ≠ int32Min ∧ st.lastShardMaxValue + 1 ≠ rangeLow) := by
    rintro ⟨hne, hgap⟩
    rcases hf with ⟨hlast, -⟩ | ⟨-, hnext⟩
    · exact hne hlast
    · exact hgap hnext
  obtain ⟨st', hrow⟩ : ∃ st', fetchRow old st ⟨rangeLow, r.rangePoint, (info r.serverId).1,
      (info r.serverId).2, r.serverId⟩ = .ok st' := ⟨_, if_neg hvalid⟩
  refine ⟨st', hrow, ?_⟩
  obtain ⟨-, m, hsorted, rfl, hmem⟩ := fetchRow_ok old hrow h.sorted
  refine ⟨rfl, ?_⟩
  -- the entry in front of a first range is below every hash value
  have hsame : ∀ k server, 0 ≤ k → ((k, server) ∈ m ↔ (k, server) ∈ st.shardTable) := by
    intro k server hk
    refine (hmem _).trans (or_iff_left ?_)
    rintro ⟨hfirst, heq, -⟩
    have hkey : k = rangeLow - 1 := congrArg Prod.fst heq
    rcases hf with ⟨-, hlow⟩ | ⟨hne, -⟩
    · omega
    · exact hne hfirst.1
  refine ⟨sorted_emplace hsorted _ _, ?_, ?_⟩
  · intro k server hk
    rw [mem_emplace hsorted, hsame k server hk, h.entries k server hk]
    constructor
    · rintro (⟨r', hr', hpoint, hserver⟩ | ⟨heq, -⟩)
      · exact ⟨r', mem_append_left _ hr', hpoint, hserver⟩
      · obtain ⟨rfl, rfl⟩ := Prod.mk.inj heq
        exact ⟨r, by simp, rfl, rfl⟩
    · rintro ⟨r', hr', hpoint, hserver⟩
      rcases mem_append.mp hr' with hr' | hr'
      · exact .inl ⟨r', hr', hpoint, hserver⟩
      · obtain rfl := mem_singleton.mp hr'
        refine .inr ⟨by rw [hserver, ← hpoint]; rfl, ?_⟩
        -- no entry stands in the way: the points of the rows done are all smaller
        rintro ⟨k', server'⟩ he' hkey
        obtain rfl : k' = r'.rangePoint := hkey
        have hk' : 0 ≤ r'.rangePoint := by omega
        obtain ⟨r'', hr'', hpoint', -⟩ :=
          (h.entries _ server' hk').mp ((hsame _ server' hk').mp he')
        exact absurd hpoint' (habove r'' hr'').ne
  · intro r' hr'
    apply (RouteMap.tryEmplace_isSome _ _ _ _).mpr
    rcases mem_append.mp hr' with hr' | hr'
    · exact .inr (h.routes r' hr')
    · obtain rfl := mem_singleton.mp hr'
      exact .inl rfl

/-- **The loop over all rows.**  The induction is on the rows that are left. -/
theorem Fetched.rows : ∀ (rows done : List Row) (st : Fetch) (rangeLow : Int),
    Fetched info done st → Follows st.lastShardMaxValue rangeLow → Sorted (done ++ rows) →
    ∃ st', fetchRows old st (reportFrom info rangeLow rows) = .ok st' ∧
      Fetched info (done ++ rows) st' ∧
      st'.lastShardMaxValue = (rows.getLast?.map Row.rangePoint).getD st.lastShardMaxValue := by
  intro rows
  induction rows with
  | nil =>
    intro done st rangeLow h _ _
    exact ⟨st, rfl, by rwa [append_nil], rfl⟩
  | cons r rows ih =>
    intro done st rangeLow h hf hsorted
    have habove : ∀ r' ∈ done, r'.rangePoint < r.rangePoint := fun r' hr' =>
      (pairwise_append.mp hsorted).2.2 r' hr' r mem_cons_self
    obtain ⟨st₁, hrow, hlast, h₁⟩ := h.row old hf habove
    have hassoc : done ++ r :: rows = (done ++ [r]) ++ rows := by simp
    rw [hassoc] at hsorted ⊢
    have hf₁ : Follows st₁.lastShardMaxValue (r.rangePoint + 1) :=
      hlast ▸ follows_next r
    obtain ⟨st₂, hrows, h₂, hlast₂⟩ := ih (done ++ [r]) st₁ (r.rangePoint + 1) h₁ hf₁ hsorted
    refine ⟨st₂, ?_, h₂, ?_⟩
    · rw [reportFrom, fetchRows, hrow]
      exact hrows
    · rw [hlast₂, hlast]
      cases rows with
      | nil => rfl
      | cons r' rows =>
        rw [getLast?_cons_cons]
        cases hl : (r' :: rows).getLast? with
        | none => simp at hl
        | some last => rfl

/-- **Every well-formed table is fetched.** -/
theorem fetchShardTable_ok (t : Table) (info : Int → String × Int) :
    ∃ router last, fetchShardTable old (falconRenewShardTable info t.rows) = .ok router ∧
      Fetched info t.rows ⟨last, router.shardTable, router.routeMap⟩ := by
  have h₀ : Fetched info [] ⟨int32Min, [], RouteMap.empty⟩ :=
    ⟨List.Pairwise.nil, by simp, by simp⟩
  obtain ⟨st, hrows, h, hlast⟩ := Fetched.rows old t.rows [] _ shardTableRangeMin h₀
    (.inl ⟨rfl, le_refl 0⟩) t.increasing
  obtain ⟨serverId, hend⟩ := t.last
  rw [hend] at hlast
  have hmax : st.lastShardMaxValue = int32Max := hlast
  refine ⟨⟨st.shardTable, st.routeMap⟩, st.lastShardMaxValue, ?_, h⟩
  unfold fetchShardTable falconRenewShardTable
  rw [hrows]
  exact if_neg (not_not.mpr hmax)

end Fetching

/-! ## 5. The last component -/

theorem findLastOf_none {c : Byte} : ∀ {str : List Byte}, c ∉ str → findLastOf c str = none
  | [], _ => rfl
  | b :: str, h => by
    have hb : b ≠ c := fun e => h (e ▸ mem_cons_self)
    have ih := findLastOf_none (fun hc => h (mem_cons_of_mem b hc))
    simp only [findLastOf, ih, if_neg hb]

theorem findLastOf_append {c : Byte} {name : List Byte} (h : c ∉ name) :
    ∀ dir : List Byte, findLastOf c (dir ++ c :: name) = some dir.length
  | [] => by simp [findLastOf, findLastOf_none h]
  | b :: dir => by
    have ih := findLastOf_append h dir
    simp only [cons_append, findLastOf, ih, length_cons]

/-- A component of a path: not empty, and without a slash. -/
structure Component where
  name : List Byte
  nonempty : name ≠ []
  noSlash : slash ∉ name

/-- The absolute path of some components. -/
def pathOf (components : List Component) : List Byte := components.flatMap fun c => slash :: c.name

theorem pathOf_append_one (dir : List Component) (c : Component) :
    pathOf (dir ++ [c]) = pathOf dir ++ slash :: c.name := by
  simp [pathOf]

theorem pathOf_head? (dir : List Component) (c : Component) :
    (pathOf (dir ++ [c])).head? = some slash := by
  cases dir <;> rfl

theorem drop_behind {c : Byte} (pre name : List Byte) :
    (pre ++ c :: name).drop (pre.length + 1) = name := by
  rw [← drop_drop, drop_left, drop_one, tail_cons]

/-- **What is hashed is the last component**, with the slash behind it if there is one, up to the
end of the string. -/
theorem filenameData_append {name trail : List Byte} (hne : name ≠ []) (hslash : slash ∉ name)
    (pre : List Byte) (htrail : trail = [] ∨ trail = [slash]) :
    filenameData (pre ++ slash :: name ++ trail) = name ++ trail ++ [0] := by
  have hlast : (pre ++ slash :: name).getLast? ≠ some slash := by
    rw [getLast?_append, getLast?_cons, getLast?_eq_some_getLast hne]
    intro h
    simp only [getD_some, some_or, some.injEq] at h
    exact hslash (h ▸ getLast_mem hne)
  have hview : (if 1 < (pre ++ slash :: name ++ trail).length ∧
      (pre ++ slash :: name ++ trail).getLast? = some slash
      then (pre ++ slash :: name ++ trail).dropLast else pre ++ slash :: name ++ trail) =
        pre ++ slash :: name := by
    rcases htrail with rfl | rfl
    · rw [append_nil]
      exact if_neg fun h => hlast h.2
    · rw [if_pos ⟨by simp; omega, getLast?_concat⟩, dropLast_concat]
  have hfind := findLastOf_append hslash pre
  unfold filenameData
  rw [hview]
  simp only [hfind, getD_some, drop_behind]
  rw [if_neg fun h => hne h.1, append_assoc, append_assoc, cons_append, drop_behind,
    append_assoc]

theorem filenameData_eq (dir : List Component) (c : Component) :
    filenameData (pathOf (dir ++ [c])) = c.name ++ [0] := by
  have h := filenameData_append c.nonempty c.noSlash (pathOf dir) (.inl rfl)
  rwa [append_nil, append_nil, ← pathOf_append_one] at h

/-! ## 6. Client and server agree -/

/-- **The client routes a path to the server that the server's own search gives**, for every table,
every path with at least one component, and every parent id.  The hypothesis is the assumption that
PostgreSQL's hash function is the one the client has copied. -/
theorem route_agrees (signedChar : Bool) (pgHash : BitVec 32 → BitVec 32)
    (hpg : ∀ k, pgHash k = hashBytesUint32 k) (t : Table) (info : Int → String × Int)
    (old : RouteMap) (dir : List Component) (c : Component) (parentId : BitVec 64) :
    ∃ router conn rangePoint serverId,
      fetchShardTable old (falconRenewShardTable info t.rows) = .ok router ∧
      searchShardInfoByShardValue pgHash t.rows
        (combineParentIdWithPartId parentId (hashPartId signedChar (c.name ++ [0]))) =
          .ok (rangePoint, serverId) ∧
      router.getWorkerConnByPath signedChar (pathOf (dir ++ [c])) = .ok (some conn) ∧
      conn.server = ⟨(info serverId).1, (info serverId).2 + 10, serverId⟩ := by
  obtain ⟨router, last, hfetch, h⟩ := fetchShardTable_ok old t info
  obtain rfl : pgHash = hashBytesUint32 := funext hpg
  have hrange := hashInt64_range hashBytesUint32
    ((hashPartId signedChar (c.name ++ [0])).zeroExtend 64)
  obtain ⟨r, hsearch, hleast⟩ := search_isLeast t hrange.2
  -- the least entry of the server's table, as an entry of the client's
  have hpoint : 0 ≤ r.rangePoint := le_trans hrange.1 hleast.ge
  have hmem : (r.rangePoint, serverOfRow info r) ∈ router.shardTable :=
    (h.entries _ _ hpoint).mpr ⟨r, hleast.mem, rfl, rfl⟩
  have hbound : IsLeast router.shardTable (hashInt8 ((hashPartId signedChar
      (c.name ++ [0])).zeroExtend 64)) (r.rangePoint, serverOfRow info r) := by
    refine ⟨hmem, hleast.ge, ?_⟩
    rintro ⟨k, server⟩ he hge
    obtain ⟨r', hr', rfl, -⟩ := (h.entries k server (le_trans hrange.1 hge)).mp he
    exact hleast.least r' hr' hge
  obtain ⟨conn, hconn⟩ := isSome_iff_exists.mp (h.routes r hleast.mem)
  refine ⟨router, conn, r.rangePoint, r.serverId, hfetch, ?_, ?_, RouteMap.find?_server hconn⟩
  · unfold searchShardInfoByShardValue
    rw [hashShard_combine _ _ _ (hashPartId_mask _ _)]
    exact hsearch
  · unfold Router.getWorkerConnByPath
    rw [if_neg (not_not.mpr (pathOf_head? dir c)), filenameData_eq, clientHashPartId_eq]
    simp only [lowerBound_eq h.sorted hbound, hconn]

/-- Two shards on two servers, and the path `/a`. -/
theorem route_agrees_two :
    ∃ router conn rangePoint serverId,
      fetchShardTable RouteMap.empty (falconRenewShardTable (fun _ => ("host", 5432))
        [(1000, 1), (int32Max, 2)]) = .ok router ∧
      searchShardInfoByShardValue hashBytesUint32 [(1000, 1), (int32Max, 2)]
        (combineParentIdWithPartId 7 (hashPartId true ([97] ++ [0]))) = .ok (rangePoint, serverId) ∧
      router.getWorkerConnByPath true (pathOf ([] ++ [⟨[97], by decide, by decide⟩])) =
        .ok (some conn) ∧
      conn.server = ⟨"host", 5432 + 10, serverId⟩ :=
  route_agrees true hashBytesUint32 (fun _ => rfl)
    ⟨[(1000, 1), (int32Max, 2)], by simp [Sorted, int32Max], 2, rfl⟩
    (fun _ => ("host", 5432)) RouteMap.empty [] ⟨[97], by decide, by decide⟩ 7

end FalconFS.Client
