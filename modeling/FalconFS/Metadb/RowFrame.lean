/-
# What a change of attributes leaves alone

utimens, chown, chmod and close all go through `SearchAndUpdateInodeTableInfo`, whose effect depends
on which of its pointers are null.  Here is what they have in common: at most the row under the key
of the path is another one afterwards, and it differs in the columns of the request only.  A request
whose path does not lead to a parent, which goes to another server or finds no row changes nothing;
nor does a transaction that fails.

Closes come in batches, which are one transaction; each of them has its row.
-/
import FalconFS.Metadb.RowRequests

namespace FalconFS.InodeRows

open Option

/-! ## 1. Rows that change -/

/-- Only rows under `keys` change, and only as `R` says. -/
def Changes (R : InodeTuple → InodeTuple → Prop) (keys : List RowKey) (rel rel' : InodeRelation) :
    Prop :=
  ∀ k, rel' k = rel k ∨
    k ∈ keys ∧ ∃ r r', rel k = some r ∧ rel' k = some r' ∧ R r r'

/-- The same for the tables of all servers: those of the others stay as they are. -/
def ChangesAt (R : InodeTuple → InodeTuple → Prop) (self : ServerId) (keys : List RowKey)
    (t t' : Tables) : Prop :=
  (∀ server, server ≠ self → t' server = t server) ∧ Changes R keys (t self) (t' self)

/-- The columns of utimens. -/
def TimesOnly (r r' : InodeTuple) : Prop := r' = { r with stAtim := r'.stAtim, stMtim := r'.stMtim }

/-- The columns of chown. -/
def OwnerOnly (r r' : InodeTuple) : Prop := r' = { r with stUid := r'.stUid, stGid := r'.stGid }

/-- The nine permission bits of chmod. -/
def PermissionsOnly (r r' : InodeTuple) : Prop :=
  r' = { r with stMode := r'.stMode } ∧ r'.stMode &&& ~~~0x1FF = r.stMode &&& ~~~0x1FF

/-- The columns of close. -/
def SizeOnly (r r' : InodeTuple) : Prop :=
  r' = { r with stSize := r'.stSize, stMtim := r'.stMtim, primaryNodeid := r'.primaryNodeid }

variable {R : InodeTuple → InodeTuple → Prop} {rel rel₁ rel₂ : InodeRelation} {k : RowKey}
  {keys keys' : List RowKey} {a : SearchAndUpdateInfo} {cfg : Placement} {self : ServerId}
  {p : Parsed}

theorem changes_refl : Changes R keys rel rel := fun _ => .inl rfl

theorem Changes.trans (hR : ∀ r₀ r₁ r₂, R r₀ r₁ → R r₁ r₂ → R r₀ r₂) (h : Changes R keys rel rel₁)
    (h' : Changes R keys' rel₁ rel₂) : Changes R (keys ++ keys') rel rel₂ := by
  intro k
  rcases h' k with heq | ⟨hk', r₁, r₂, hr₁, hr₂, hR'⟩
  · rw [heq]
    exact (h k).imp_right fun ⟨hk, hrest⟩ => ⟨List.mem_append_left _ hk, hrest⟩
  · refine .inr ⟨List.mem_append_right _ hk', ?_⟩
    rcases h k with heq | ⟨-, r, r₁', hr, hr₁', hR₁⟩
    · exact ⟨r₁, r₂, heq ▸ hr₁, hr₂, hR'⟩
    · obtain rfl := some.inj (hr₁'.symm.trans hr₁)
      exact ⟨r, r₂, hr, hr₂, hR r r₁' r₂ hR₁ hR'⟩

/-! ## 2. The helper and its callers -/

/-- Arguments that ask for no check and no other link count: the row stays, and is modified. -/
def Modifies (R : InodeTuple → InodeTuple → Prop) (a : SearchAndUpdateInfo) : Prop :=
  ∀ r, ∃ r', a.apply r = some (some r') ∧ R r r'

theorem changes_search (ha : Modifies R a) {found : Option InodeTuple}
    (hrun : searchAndUpdateInodeTableInfo rel k a = some (found, rel₁)) :
    Changes R [k] rel rel₁ := by
  obtain ⟨-, ⟨-, rfl⟩ | ⟨r, v, hr, happly, rfl⟩⟩ := searchAndUpdate_some hrun
  · exact changes_refl
  · obtain ⟨r', happly', hR⟩ := ha r
    obtain rfl : v = some r' := some.inj (happly.symm.trans happly')
    intro k'
    by_cases hk : k' = k
    · obtain rfl := hk
      exact .inr ⟨List.mem_singleton_self _, r, r', hr, Function.update_self .., hR⟩
    · exact .inl (Function.update_of_ne hk ..)

theorem changes_changeRow (ha : Modifies R a) (hrun : changeRow cfg self a rel p = some rel₁) :
    Changes R [cfg.key p] rel rel₁ := by
  obtain ⟨-, hrun⟩ := Option.ite_none_right_eq_some.mp hrun
  obtain ⟨⟨found, rel'⟩, hsearch, hres⟩ := bind_eq_some_iff.mp hrun
  obtain ⟨-, -, rfl⟩ := map_eq_some_iff.mp hres
  exact changes_search ha hsearch

theorem changes_changeOne (ha : Modifies R a) (hrun : changeOne cfg self a rel p = some rel₁) :
    Changes R [cfg.key p] rel rel₁ := by
  unfold changeOne at hrun
  dsimp only at hrun
  split at hrun
  · obtain ⟨⟨found, rel'⟩, hsearch, rfl⟩ := map_eq_some_iff.mp hrun
    exact changes_search ha hsearch
  · cases hrun
    exact changes_refl

theorem modifies_utimeNs (stAtim stMtim now now' : BitVec 64) :
    Modifies TimesOnly (utimeNsArgs stAtim stMtim now now') := by
  unfold utimeNsArgs
  split <;> exact fun r => ⟨_, rfl, rfl⟩

theorem modifies_chown (stUid stGid : BitVec 32) : Modifies OwnerOnly (chownArgs stUid stGid) :=
  fun _ => ⟨_, rfl, rfl⟩

theorem modifies_close (i : CloseInfo) : Modifies SizeOnly (closeArgs i) := fun _ => ⟨_, rfl, rfl⟩

theorem modifies_chmod (stMode : BitVec 32) : Modifies PermissionsOnly (chmodArgs stMode) := by
  refine fun r => ⟨_, rfl, rfl, ?_⟩
  show (r.stMode &&& ~~~0x1FF ||| stMode &&& 0x1FF) &&& ~~~0x1FF = r.stMode &&& ~~~0x1FF
  have hzero : (0x1FF : BitVec 32) &&& ~~~0x1FF = 0#32 := by decide
  rw [BitVec.and_or_distrib_right, BitVec.and_assoc, BitVec.and_self, BitVec.and_assoc, hzero,
    BitVec.and_zero, BitVec.or_zero]

theorem SizeOnly.trans {r₀ r₁ r₂ : InodeTuple} (h : SizeOnly r₀ r₁) (h' : SizeOnly r₁ r₂) :
    SizeOnly r₀ r₂ := by
  unfold SizeOnly at *
  rw [h', h]

theorem changes_close (infos : List CloseInfo) : ∀ {rel rel₁ : InodeRelation},
    infos.foldlM (fun rel i => changeOne cfg self (closeArgs i) rel i.toParsed) rel = some rel₁ →
      Changes SizeOnly (infos.map fun i => cfg.key i.toParsed) rel rel₁ := by
  induction infos with
  | nil =>
    intro rel rel₁ hrun
    cases hrun
    exact changes_refl
  | cons i infos ih =>
    intro rel rel₁ hrun
    rw [List.foldlM_cons] at hrun
    obtain ⟨rel', hone, hrest⟩ := bind_eq_some_iff.mp hrun
    have h := changes_changeOne (modifies_close i) hone
    exact h.trans (fun _ _ _ hone hrest => hone.trans hrest) (ih hrest)

/-! ## 3. Requests -/

theorem changesAt_step {t : Tables} {req : Request} {f : InodeRelation → Option InodeRelation}
    (hreq : handle cfg t req = onServer t self f)
    (hf : ∀ rel₁, f (t self) = some rel₁ → Changes R keys (t self) rel₁) :
    ChangesAt R self keys t (step cfg t req) := by
  rw [step, hreq, onServer]
  cases hrun : f (t self) with
  | none => exact ⟨fun _ _ => rfl, changes_refl⟩
  | some rel₁ =>
    refine ⟨fun server hne => Function.update_of_ne hne .., ?_⟩
    rw [map_some, getD_some, Function.update_self]
    exact hf rel₁ hrun

theorem changesAt_row {t : Tables} {req : Request}
    (hreq : handle cfg t req = onServer t self fun rel => changeRow cfg self a rel p)
    (ha : Modifies R a) : ChangesAt R self [cfg.key p] t (step cfg t req) :=
  changesAt_step hreq fun _ => changes_changeRow ha

/-- **The frame of utimens, chown, chmod and close**, on every table and whether they succeed or
not. -/
theorem attributes_frame (cfg : Placement) (t : Tables) (self : ServerId) (info : Parsed) :
    (∀ stAtim stMtim now now', ChangesAt TimesOnly self [cfg.key info] t
      (step cfg t (.utimeNs self info stAtim stMtim now now'))) ∧
    (∀ stUid stGid, ChangesAt OwnerOnly self [cfg.key info] t
      (step cfg t (.chown self info stUid stGid))) ∧
    (∀ stMode, ChangesAt PermissionsOnly self [cfg.key info] t
      (step cfg t (.chmod self info stMode))) ∧
    (∀ infos : List CloseInfo,
      ChangesAt SizeOnly self (infos.map fun i => cfg.key i.toParsed) t
        (step cfg t (.close self infos))) := by
  refine ⟨fun stAtim stMtim now now' => ?_, fun stUid stGid => ?_, fun stMode => ?_,
    fun infos => ?_⟩
  · exact changesAt_row rfl (modifies_utimeNs stAtim stMtim now now')
  · exact changesAt_row rfl (modifies_chown stUid stGid)
  · exact changesAt_row rfl (modifies_chmod stMode)
  · exact changesAt_step (f := fun rel => infos.foldlM
      (fun rel i => changeOne cfg self (closeArgs i) rel i.toParsed) rel) rfl fun _ =>
        changes_close infos

end FalconFS.InodeRows
