import HDCS.Proof.DomainMap
import Mathlib.Data.Finset.Basic
import Mathlib.Data.Finset.Dedup
import Mathlib.Data.List.GetD

/-!
# Who is up, and what the domain map makes of it

Hosts come and go by `offline_host` and `online_host`. Of a master this is kept in
`online_node_list`, and of a slave in its weight; `IsOnline` is both. Every call changes it for the
host it names, and for no other (`isOnline_offlineHost`, `isOnline_onlineHost`), and a refresh
changes it for none, although it takes every weight down for a while.

The items are a function of who is online: the weights are (`weights_eq`), and the order of
`online_node_list` does not matter. So the history before a refresh does not either.
-/

namespace HDCS.Proof

open Lib CrushMapGenerator List

/-! ## Slaves by their index -/

section Indices

variable {c c' : CrushMapGenerator} {slaves : List Text} {host other : Text}

structure Indexed (c : CrushMapGenerator) (slaves : List Text) : Prop where
  nodup : slaves.Nodup
  index : ∀ (host : Text) (i : Nat), c.hostMap[host]? = some i ↔ slaves[i]? = some host
  length : c.weights.length = slaves.length

theorem Indexed.mem_iff (h : Indexed c slaves) : host ∈ c.hostMap ↔ host ∈ slaves := by
  rw [OrderedMap.mem_iff, mem_iff_getElem?]
  simp only [h.index]

theorem Indexed.injective (h : Indexed c slaves) {i : Nat} (hhost : c.hostMap[host]? = some i)
    (hother : c.hostMap[other]? = some i) : host = other := by
  rw [h.index] at hhost hother
  exact Option.some.inj (hhost.symm.trans hother)

theorem Indexed.lt (h : Indexed c slaves) {i : Nat} (hhost : c.hostMap[host]? = some i) :
    i < c.weights.length := by
  rw [h.length]
  exact (List.getElem?_eq_some_iff.mp ((h.index host i).mp hhost)).1

theorem foldl_addHost_spec (rule : CrushRule) (count : UInt8) (hosts : List Text) :
    hosts.Nodup →
      (hosts.foldl addHost (.new rule count)).hostCount = hosts.length
      ∧ ∀ (host : Text) (i : Nat),
        (hosts.foldl addHost (.new rule count)).hostMap[host]? = some i
          ↔ hosts[i]? = some host := by
  induction hosts using List.reverseRecOn with
  | nil =>
    refine fun _ => ⟨rfl, fun host i => ?_⟩
    simp [new]
  | append_singleton hosts x ih =>
    intro hnodup
    obtain ⟨hhosts, -, hx⟩ := nodup_append.mp hnodup
    have hx : x ∉ hosts := fun hmem => hx x hmem x mem_cons_self rfl
    obtain ⟨hcount, hindex⟩ := ih hhosts
    have hnew : x ∉ (hosts.foldl addHost (.new rule count)).hostMap := by
      rw [mem_foldl_addHost]
      exact not_or.mpr ⟨hx, Std.TreeMap.not_mem_emptyc⟩
    rw [foldl_append, foldl_cons, foldl_nil]
    unfold addHost at hcount hindex hnew ⊢
    rw [if_neg hnew]
    refine ⟨by rw [length_append, hcount]; rfl, fun host i => ?_⟩
    dsimp only
    rw [OrderedMap.getElem?_insert, getElem?_append, getElem?_singleton, hcount]
    by_cases hhost : x = host
    · subst hhost
      rw [if_pos rfl]
      constructor
      · intro h
        rw [← Option.some.inj h, if_neg (Nat.lt_irrefl _), Nat.sub_self, if_pos rfl]
      · intro h
        split at h
        · exact absurd (mem_of_getElem? h) hx
        · split at h
          · rw [show i = hosts.length by omega]
          · cases h
    · rw [if_neg hhost, hindex host i]
      constructor
      · intro h
        rw [if_pos (List.getElem?_eq_some_iff.mp h).1]
        exact h
      · intro h
        split at h
        · exact h
        · split at h
          · exact absurd (Option.some.inj h) hhost
          · cases h

theorem indexed_build (rule : CrushRule) (count : UInt8) {hosts : List Text} (h : hosts.Nodup) :
    Indexed ((new rule count).build hosts) hosts := by
  obtain ⟨hcount, hindex⟩ := foldl_addHost_spec rule count hosts h
  refine ⟨h, hindex, ?_⟩
  unfold build
  rw [length_replicate, hcount]

/-! ## The weights -/

def Weighs (c : CrushMapGenerator) (host : Text) : Prop :=
  ∃ i w, c.hostMap[host]? = some i ∧ c.weights[i]? = some w ∧ w ≠ 0

theorem weighs_setWeight (h : Indexed c slaves) (weight : Nat) :
    Weighs (c.setWeight host weight) other
      ↔ if other = host then host ∈ c.hostMap ∧ weight ≠ 0 else Weighs c other := by
  unfold Weighs setWeight
  cases hhost : c.hostMap[host]? with
  | none =>
    have hnot : host ∉ c.hostMap := fun hmem => by
      obtain ⟨i, hi⟩ := OrderedMap.mem_iff.mp hmem
      cases hhost.symm.trans hi
    by_cases heq : other = host
    · subst heq
      simp [hnot]
    · rw [if_neg heq]
  | some index =>
    have hlt := h.lt hhost
    dsimp only
    by_cases heq : other = host
    · subst heq
      rw [if_pos rfl]
      constructor
      · intro ⟨i, w, hi, hw, hne⟩
        obtain rfl : index = i := Option.some.inj (hhost.symm.trans hi)
        rw [getElem?_set_self hlt] at hw
        exact ⟨OrderedMap.mem_iff.mpr ⟨_, hhost⟩, Option.some.inj hw ▸ hne⟩
      · intro ⟨_, hne⟩
        exact ⟨index, weight, hhost, getElem?_set_self hlt, hne⟩
    · rw [if_neg heq]
      have hne : ∀ i, c.hostMap[other]? = some i → index ≠ i := fun i hi hindex =>
        heq (h.injective hi (hindex ▸ hhost))
      refine exists_congr fun i => exists_congr fun w => and_congr_right fun hi => ?_
      rw [getElem?_set_ne (hne i hi)]

/-- **The weights are those of the hosts that are in.** -/
theorem weights_eq (h : Indexed c slaves) (h' : Indexed c' slaves) (hw : TwoWeights c)
    (hw' : TwoWeights c') (hsame : ∀ host, Weighs c host ↔ Weighs c' host) :
    c.weights = c'.weights := by
  refine ext_getElem (h.length.trans h'.length.symm) fun i hi hi' => ?_
  obtain ⟨host, hhost⟩ : ∃ host, slaves[i]? = some host :=
    ⟨_, getElem?_eq_getElem (h.length ▸ hi)⟩
  have hi₁ := (h.index host i).mpr hhost
  have hi₂ := (h'.index host i).mpr hhost
  have hiff : c.weights[i] ≠ 0 ↔ c'.weights[i] ≠ 0 := by
    have := hsame host
    unfold Weighs at this
    simpa [hi₁, hi₂, getElem?_eq_getElem hi, getElem?_eq_getElem hi'] using this
  rcases hw _ (getElem_mem hi) with h₁ | h₁
  · rcases hw' _ (getElem_mem hi') with h₂ | h₂
    · rw [h₁, h₂]
    · exact absurd h₁ (hiff.mpr (by rw [h₂]; decide))
  · rcases hw' _ (getElem_mem hi') with h₂ | h₂
    · exact absurd h₂ (hiff.mp (by rw [h₁]; decide))
    · rw [h₁, h₂]

/-! ## The names that are chosen -/

theorem map_zip_map (result : List Nat) (g : Nat → Text) (f : Text × Nat → Text) :
    ((result.map g).zip result).map f = result.map fun r => f (g r, r) := by
  induction result with
  | nil => rfl
  | cons r result ih => rw [map_cons, zip_cons_cons, map_cons, ih, map_cons]

theorem foldl_names (result : List Nat) (hosts : List (Text × Nat)) (g : Nat → Text) :
    hosts.foldl (fun item x => (item.zip result).map fun y => if x.2 = y.2 then x.1 else y.1)
        (result.map g)
      = result.map fun r => hosts.foldl (fun name x => if x.2 = r then x.1 else name) (g r) := by
  induction hosts generalizing g with
  | nil => rfl
  | cons x hosts ih =>
    rw [foldl_cons, map_zip_map, ih]
    rfl

theorem foldl_name_of_mem {r : Nat} {hosts : List (Text × Nat)} (hmem : (host, r) ∈ hosts)
    (hunique : ∀ x ∈ hosts, x.2 = r → x.1 = host) (start : Text) :
    hosts.foldl (fun name x => if x.2 = r then x.1 else name) start = host := by
  induction hosts using List.reverseRecOn with
  | nil => exact absurd hmem not_mem_nil
  | append_singleton hosts x ih =>
    rw [foldl_append, foldl_cons, foldl_nil]
    by_cases hx : x.2 = r
    · rw [if_pos hx]
      exact hunique x (mem_append_right _ mem_cons_self) hx
    · rw [if_neg hx]
      rcases mem_append.mp hmem with hmem | hmem
      · exact ih hmem fun y hy => hunique y (mem_append_left _ hy)
      · exact absurd (congrArg Prod.snd (mem_singleton.mp hmem)).symm hx

/-- **The names of the devices** are those of the hosts with these indices. -/
theorem nameAll_eq (h : Indexed c slaves) {result : List Nat}
    (hresult : ∀ r ∈ result, r < slaves.length) :
    c.nameAll result = result.map fun r => slaves.getD r [] := by
  rw [nameAll, Std.TreeMap.foldl_eq_foldl_toList, ← map_const']
  refine (foldl_names result c.hostMap.toList fun _ => []).trans ?_
  refine map_congr_left fun r hr => ?_
  have hlt := hresult r hr
  have hr : slaves[r]? = some slaves[r] := getElem?_eq_getElem hlt
  rw [getD_eq_getElem?_getD, hr]
  refine foldl_name_of_mem ?_ (fun x hx hxr => ?_) _
  · rw [Std.TreeMap.mem_toList_iff_getElem?_eq_some, h.index]
    exact hr
  · have hx := Std.TreeMap.mem_toList_iff_getElem?_eq_some.mp hx
    rw [h.index, hxr] at hx
    exact Option.some.inj (hx.symm.trans hr)

/-- What is assumed of `crush_do_rule`: distinct devices, and only such that have a weight. -/
structure SoundRule (rule : CrushRule) : Prop where
  nodup : ∀ resultMax x weights, (rule.doRule resultMax x weights).Nodup
  weight : ∀ resultMax x weights, ∀ i ∈ rule.doRule resultMax x weights,
    ∃ w, weights[i]? = some w ∧ w ≠ 0

/-- **The names that are chosen for a host**: others, that weigh something. -/
theorem domainOf_sound (h : Indexed c slaves) (hrule : SoundRule c.rule) (host : Text) :
    (domainOf c host).Nodup
      ∧ ∀ name ∈ domainOf c host, name ∈ slaves ∧ Weighs c name ∧ name ≠ host := by
  unfold domainOf getHostDomain
  cases hhost : c.hostMap[host]? with
  | none => exact ⟨nodup_nil, by simp⟩
  | some index =>
    dsimp only
    have hresult : ∀ r ∈ c.rule.doRule c.replicationCount.toNat index (c.weights.set index 0),
        r < slaves.length ∧ r ≠ index ∧ ∃ w, c.weights[r]? = some w ∧ w ≠ 0 := by
      intro r hr
      obtain ⟨w, hw, hne⟩ := hrule.weight _ _ _ r hr
      have hindex : r ≠ index := by
        intro heq
        rw [heq, getElem?_set_self (h.lt hhost)] at hw
        exact hne (Option.some.inj hw).symm
      rw [getElem?_set_ne (Ne.symm hindex)] at hw
      exact ⟨h.length ▸ (List.getElem?_eq_some_iff.mp hw).1, hindex, w, hw, hne⟩
    rw [nameAll_eq h fun r hr => (hresult r hr).1]
    constructor
    · refine List.Nodup.map_on (fun r hr r' hr' heq => ?_) (hrule.nodup _ _ _)
      rw [getD_eq_getElem _ _ (hresult r hr).1, getD_eq_getElem _ _ (hresult r' hr').1] at heq
      exact (h.nodup.getElem_inj_iff).mp heq
    · intro name hname
      obtain ⟨r, hr, rfl⟩ := mem_map.mp hname
      obtain ⟨hlt, hindex, w, hw, hne⟩ := hresult r hr
      rw [getD_eq_getElem _ _ hlt]
      have hname := (h.index slaves[r] r).mpr (getElem?_eq_getElem hlt)
      refine ⟨getElem_mem hlt, ⟨r, w, hname, hw, hne⟩, fun heq => hindex ?_⟩
      rw [heq, hhost] at hname
      exact (Option.some.inj hname).symm

end Indices

/-! ## Who is online -/

/-- A slave that is online has a weight, and a master is in `online_node_list`. -/
def IsOnline (d : HDCSDomainMap) (host : Text) : Prop :=
  if endsInSlave host = some true then Weighs d.cmap host else host ∈ d.onlineNodeList

structure Known (c₀ : CrushMapGenerator) (slaves : List Text) (d : HDCSDomainMap) : Prop where
  stale : Stale d
  /-- Of the generator, only the weights change. -/
  cmap : d.cmap = { c₀ with weights := d.cmap.weights }
  indexed : Indexed d.cmap slaves
  slaves : ∀ host ∈ slaves, ∃ master, endsInSlave master = some false ∧ host = slaveOf master
  nodup : d.onlineNodeList.Nodup
  masters : ∀ host ∈ d.onlineNodeList, endsInSlave host = some false

section Calls

variable {c₀ : CrushMapGenerator} {slaves : List Text} {d d' : HDCSDomainMap} {host other : Text}

theorem setWeight_eq (c : CrushMapGenerator) (host : Text) (weight : Nat) :
    c.setWeight host weight = { c with weights := (c.setWeight host weight).weights } := by
  unfold setWeight
  split <;> rfl

theorem length_setWeight (c : CrushMapGenerator) (host : Text) (weight : Nat) :
    (c.setWeight host weight).weights.length = c.weights.length := by
  unfold setWeight
  split
  · exact length_set
  · rfl

theorem Indexed.setWeight {c : CrushMapGenerator} (h : Indexed c slaves) (host : Text)
    (weight : Nat) : Indexed (c.setWeight host weight) slaves where
  nodup := h.nodup
  index := by
    rw [setWeight_hostMap]
    exact h.index
  length := by
    rw [length_setWeight]
    exact h.length

/-! ## Calls -/

/-- A call at the domain map that says who is online, or makes the items anew. Asking for an item
may change the map as well, but nobody's item (`hasItem_getHostDomainItem`). -/
inductive HostCall where
  | offline (host : Text)
  | online (host : Text)
  | refresh
  deriving DecidableEq

/-- The host that the call is about has a name that can be compared. -/
def HostCall.Named : HostCall → Prop
  | .offline host | .online host => 5 ≤ host.length
  | .refresh => True

def HostCall.run (d : HDCSDomainMap) : HostCall → Option HDCSDomainMap
  | .offline host => d.offlineHost host
  | .online host => d.onlineHost host
  | .refresh => some d.refreshDomainMap

/-- One call after the other. -/
def runCalls (calls : List HostCall) (d : HDCSDomainMap) : Option HDCSDomainMap :=
  calls.foldlM HostCall.run d

theorem runCalls_cons (call : HostCall) (calls : List HostCall) (d : HDCSDomainMap) :
    runCalls (call :: calls) d = (call.run d).bind (runCalls calls) :=
  foldlM_cons

theorem runCalls_append (calls calls' : List HostCall) (d : HDCSDomainMap) :
    runCalls (calls ++ calls') d = (runCalls calls d).bind (runCalls calls') :=
  foldlM_append

inductive Called (d : HDCSDomainMap) : HostCall → HDCSDomainMap → Prop where
  | slaveGone (host : Text) : Called d (.offline host) { d with cmap := d.cmap.setWeight host 0 }
  | slaveBack (host : Text) :
      Called d (.online host) { d with cmap := d.cmap.setWeight host 0x10000 }
  | masterGone (host : Text) :
      Called d (.offline host) { d with onlineNodeList := d.onlineNodeList.erase host }
  | masterThere (host : Text) : Called d (.online host) d
  | masterBack (host : Text) (hends : endsInSlave host = some false)
      (hnot : host ∉ d.onlineNodeList) :
      Called d (.online host) { d with onlineNodeList := d.onlineNodeList ++ [host] }
  | refresh : Called d .refresh d.refreshDomainMap

theorem called_of_run {call : HostCall} (hd : call.run d = some d') : Called d call d' := by
  cases call with
  | offline host =>
    obtain ⟨slave, -, rfl⟩ := Option.map_eq_some_iff.mp hd
    cases slave with
    | true => exact .slaveGone host
    | false => exact .masterGone host
  | online host =>
    obtain ⟨slave, hends, rfl⟩ := Option.map_eq_some_iff.mp hd
    cases slave with
    | true => exact .slaveBack host
    | false =>
      rw [if_neg Bool.false_ne_true]
      split
      · exact .masterThere host
      · exact .masterBack host hends (by assumption)
  | refresh =>
    cases hd
    exact .refresh

theorem stale_run {call : HostCall} (h : Stale d) (hd : call.run d = some d') : Stale d' := by
  cases call with
  | offline host => exact stale_offlineHost h hd
  | online host => exact stale_onlineHost h hd
  | refresh =>
    cases hd
    exact (fresh_refreshDomainMap h).toStale

theorem Known.run {call : HostCall} (h : Known c₀ slaves d) (hd : call.run d = some d') :
    Known c₀ slaves d' := by
  have hstale := stale_run h.stale hd
  have hcmap : ∀ host weight, d.cmap.setWeight host weight
      = { c₀ with weights := (d.cmap.setWeight host weight).weights } := by
    intro host weight
    rw [setWeight_eq, h.cmap]
  cases called_of_run hd with
  | slaveGone host =>
    exact ⟨hstale, hcmap host 0, h.indexed.setWeight host 0, h.slaves, h.nodup, h.masters⟩
  | slaveBack host =>
    exact ⟨hstale, hcmap host 0x10000, h.indexed.setWeight host 0x10000, h.slaves, h.nodup,
      h.masters⟩
  | masterGone host =>
    exact ⟨hstale, h.cmap, h.indexed, h.slaves, h.nodup.erase host,
      fun k hk => h.masters k (mem_of_mem_erase hk)⟩
  | masterThere host => exact h
  | masterBack host hends hnot =>
    refine ⟨hstale, h.cmap, h.indexed, h.slaves, nodup_append.mpr
      ⟨h.nodup, nodup_singleton _, fun a ha b hb heq => ?_⟩, fun k hk => ?_⟩
    · rw [mem_singleton.mp hb] at heq
      exact hnot (heq ▸ ha)
    · rcases mem_append.mp hk with hk | hk
      · exact h.masters k hk
      · rw [mem_singleton.mp hk]
        exact hends
  | refresh =>
    obtain ⟨m, heq, -⟩ := refreshDomainMap_eq h.stale
    rw [heq] at hstale ⊢
    exact ⟨hstale, h.cmap, h.indexed, h.slaves, h.nodup, h.masters⟩

theorem Known.offlineHost (h : Known c₀ slaves d) (hd : d.offlineHost host = some d') :
    Known c₀ slaves d' :=
  h.run (show (HostCall.offline host).run d = some d' from hd)

theorem Known.onlineHost (h : Known c₀ slaves d) (hd : d.onlineHost host = some d') :
    Known c₀ slaves d' :=
  h.run (show (HostCall.online host).run d = some d' from hd)

theorem Known.refresh (h : Known c₀ slaves d) : Known c₀ slaves d.refreshDomainMap :=
  h.run (show HostCall.refresh.run d = some _ from rfl)

theorem HostCall.Named.returns {call : HostCall} (h : call.Named) (d : HDCSDomainMap) :
    ∃ d', call.run d = some d' := by
  have hends : ∀ host : Text, 5 ≤ host.length → ∃ slave, endsInSlave host = some slave :=
    fun host hlen => ⟨_, if_neg (by omega)⟩
  cases call with
  | offline host =>
    obtain ⟨slave, hslave⟩ := hends host h
    exact ⟨_, by simp only [HostCall.run, HDCSDomainMap.offlineHost, hslave]; rfl⟩
  | online host =>
    obtain ⟨slave, hslave⟩ := hends host h
    exact ⟨_, by simp only [HostCall.run, HDCSDomainMap.onlineHost, hslave]; rfl⟩
  | refresh => exact ⟨_, rfl⟩

theorem runCalls_returns {calls : List HostCall} (h : ∀ call ∈ calls, call.Named)
    (d : HDCSDomainMap) : ∃ d', runCalls calls d = some d' := by
  induction calls generalizing d with
  | nil => exact ⟨d, rfl⟩
  | cons call calls ih =>
    obtain ⟨d₁, hd₁⟩ := (h call mem_cons_self).returns d
    obtain ⟨d', hd'⟩ := ih (fun c hc => h c (mem_cons_of_mem _ hc)) d₁
    refine ⟨d', ?_⟩
    rw [runCalls_cons, hd₁]
    exact hd'

/-! ## What a call changes -/

theorem ne_of_endsInSlave (hhost : endsInSlave host = some false)
    (hother : endsInSlave other = some true) : other ≠ host := by
  intro heq
  rw [heq, hhost] at hother
  cases hother

/-- **`offline_host`** takes the host out. -/
theorem isOnline_offlineHost (h : Known c₀ slaves d) (hd : d.offlineHost host = some d') :
    IsOnline d' other ↔ IsOnline d other ∧ other ≠ host := by
  obtain ⟨slave, hslave, rfl⟩ := Option.map_eq_some_iff.mp hd
  unfold IsOnline
  cases slave with
  | true =>
    by_cases hother : endsInSlave other = some true
    · rw [if_pos hother, if_pos hother, if_pos rfl]
      refine (weighs_setWeight h.indexed 0).trans ?_
      by_cases heq : other = host
      · simp [heq]
      · simp [heq]
    · have hne : other ≠ host := fun heq => hother (heq ▸ hslave)
      rw [if_neg hother, if_neg hother, and_iff_left hne]
      rfl
  | false =>
    by_cases hother : endsInSlave other = some true
    · rw [if_pos hother, if_pos hother, and_iff_left (ne_of_endsInSlave hslave hother)]
      rfl
    · rw [if_neg hother, if_neg hother]
      exact (h.nodup.mem_erase_iff).trans and_comm

/-- **`online_host`** brings a host in, if it is a master or there is a weight for it. -/
theorem isOnline_onlineHost (h : Known c₀ slaves d) (hd : d.onlineHost host = some d') :
    IsOnline d' other
      ↔ IsOnline d other ∨ other = host ∧ (endsInSlave host = some true → host ∈ slaves) := by
  obtain ⟨slave, hslave, rfl⟩ := Option.map_eq_some_iff.mp hd
  unfold IsOnline
  cases slave with
  | true =>
    by_cases hother : endsInSlave other = some true
    · rw [if_pos hother, if_pos hother, if_pos rfl]
      refine (weighs_setWeight h.indexed 0x10000).trans ?_
      rw [h.indexed.mem_iff]
      by_cases heq : other = host
      · subst heq
        have hmem : Weighs d.cmap other → other ∈ slaves := fun ⟨i, _, hi, _⟩ =>
          h.indexed.mem_iff.mp (OrderedMap.mem_iff.mpr ⟨i, hi⟩)
        simpa [hslave] using hmem
      · simp [heq]
    · have hne : other ≠ host := fun heq => hother (heq ▸ hslave)
      rw [if_neg hother, if_neg hother]
      exact (or_iff_left fun hx => hne hx.1).symm
  | false =>
    by_cases hother : endsInSlave other = some true
    · rw [if_pos hother, if_pos hother]
      have hne := ne_of_endsInSlave hslave hother
      refine Iff.trans ?_ (or_iff_left fun hx => hne hx.1).symm
      rw [if_neg Bool.false_ne_true]
      split <;> exact Iff.rfl
    · rw [if_neg hother, if_neg hother]
      rw [if_neg Bool.false_ne_true]
      split
      · rename_i hmem
        simpa [hslave] using fun heq : other = host => heq ▸ hmem
      · simp [hslave]

theorem refreshDomainMap_weights (h : Stale d) :
    d.refreshDomainMap.cmap.weights = d.cmap.weights := by
  obtain ⟨m, heq, -⟩ := refreshDomainMap_eq h
  rw [heq]

theorem isOnline_refresh (h : Stale d) : IsOnline d.refreshDomainMap host ↔ IsOnline d host := by
  obtain ⟨m, heq, -⟩ := refreshDomainMap_eq h
  rw [heq]
  rfl

/-! ## The hosts of the list -/

/-- Masters with names that can be compared, and slaves of such. -/
structure HostList (hosts : List Text) : Prop where
  nodup : hosts.Nodup
  names : ∀ host ∈ hosts, endsInSlave host = some false
    ∨ ∃ master, endsInSlave master = some false ∧ host = slaveOf master

theorem slaveOf_injective {master master' : Text} (h : slaveOf master = slaveOf master') :
    master = master' :=
  append_cancel_right h

theorem endsInSlave_slaveOf (master : Text) : endsInSlave (slaveOf master) = some true := by
  have hlen : (slaveOf master).length = master.length + 6 := length_append
  have hdrop : (slaveOf master).drop (master.length + 1) = ascii "slave" := by
    unfold slaveOf
    rw [drop_length_add_append]
    rfl
  unfold endsInSlave
  rw [if_neg (by omega), hlen, show master.length + 6 - 5 = master.length + 1 by omega, hdrop]
  simp

/-- A call that is about a listed host. -/
def HostCall.Listed (hosts : List Text) : HostCall → Prop
  | .offline host | .online host => host ∈ hosts
  | .refresh => True

theorem length_of_endsInSlave {slave : Bool} (h : endsInSlave host = some slave) :
    5 ≤ host.length := by
  unfold endsInSlave at h
  split at h
  · cases h
  · omega

theorem HostList.length {hosts : List Text} (h : HostList hosts) (hhost : host ∈ hosts) :
    5 ≤ host.length := by
  rcases h.names host hhost with hmaster | ⟨master, -, rfl⟩
  · exact length_of_endsInSlave hmaster
  · exact length_of_endsInSlave (endsInSlave_slaveOf master)

theorem HostCall.Listed.named {hosts : List Text} {call : HostCall} (h : call.Listed hosts)
    (hhosts : HostList hosts) : call.Named := by
  cases call with
  | offline host | online host => exact hhosts.length h
  | refresh => trivial

theorem foldlM_insertHost {hosts : List Text} (hnames : ∀ host ∈ hosts,
    endsInSlave host = some false ∨ ∃ master, host = slaveOf master) (d : HDCSDomainMap) :
    ∃ d', hosts.foldlM HDCSDomainMap.insertHost d = some d' ∧ d'.cmap = d.cmap
      ∧ d'.replicationCount = d.replicationCount
      ∧ d'.onlineNodeList = d.onlineNodeList ++ hosts.filter (endsInSlave · = some false)
      ∧ ∀ master, master ∈ d'.domainMap ↔ slaveOf master ∈ hosts ∨ master ∈ d.domainMap := by
  induction hosts generalizing d with
  | nil => exact ⟨d, rfl, rfl, rfl, by simp, by simp⟩
  | cons host hosts ih =>
    have ih := ih fun k hk => hnames k (mem_cons_of_mem _ hk)
    rw [foldlM_cons]
    rcases hnames host mem_cons_self with hmaster | ⟨master, rfl⟩
    · obtain ⟨d', hd', hcmap, hcount, honline, hmap⟩ :=
        ih { d with onlineNodeList := d.onlineNodeList ++ [host] }
      have hfirst : d.insertHost host
          = some { d with onlineNodeList := d.onlineNodeList ++ [host] } := by
        unfold HDCSDomainMap.insertHost
        rw [hmaster]
        rfl
      refine ⟨d', by rw [hfirst]; exact hd', hcmap, hcount, ?_, fun m => ?_⟩
      · rw [honline, filter_cons_of_pos (by simp [hmaster]), append_assoc]
        rfl
      · have hne : slaveOf m ≠ host := ne_of_endsInSlave hmaster (endsInSlave_slaveOf m)
        rw [hmap m, mem_cons, or_iff_right hne]
    · obtain ⟨d', hd', hcmap, hcount, honline, hmap⟩ :=
        ih { d with domainMap := d.domainMap.insert (withoutSlave (slaveOf master)) [] }
      have hslave := endsInSlave_slaveOf master
      have hfirst : d.insertHost (slaveOf master)
          = some { d with
              domainMap := d.domainMap.insert (withoutSlave (slaveOf master)) [] } := by
        unfold HDCSDomainMap.insertHost
        rw [hslave]
        rfl
      refine ⟨d', by rw [hfirst]; exact hd', hcmap, hcount, ?_, fun m => ?_⟩
      · rw [honline, filter_cons_of_neg (by simp [hslave])]
      · have heq : slaveOf m = slaveOf master ↔ master = m :=
          ⟨fun h => (slaveOf_injective h).symm, fun h => h ▸ rfl⟩
        rw [hmap m, withoutSlave_slaveOf, OrderedMap.mem_insert, mem_cons, heq]
        tauto

structure KnownItems (c₀ : CrushMapGenerator) (slaves : List Text) (d : HDCSDomainMap) : Prop
    extends Known c₀ slaves d where
  items : ∀ host, slaveOf host ∉ d.cmap.hostMap → d.domainMap[host]? = none

theorem item_run {call : HostCall} (h : Stale d) (hd : call.run d = some d') :
    d'.cmap.hostMap = d.cmap.hostMap
      ∧ ∀ host, slaveOf host ∉ d.cmap.hostMap → d'.domainMap[host]? = d.domainMap[host]? := by
  cases called_of_run hd with
  | slaveGone host | slaveBack host => exact ⟨setWeight_hostMap .., fun _ _ => rfl⟩
  | masterGone host | masterThere host | masterBack host hends hnot => exact ⟨rfl, fun _ _ => rfl⟩
  | refresh =>
    obtain ⟨m, heq, hmap⟩ := refreshDomainMap_eq h
    rw [heq]
    exact ⟨rfl, fun host hnot => (hmap host).trans (if_neg hnot)⟩

theorem KnownItems.run {call : HostCall} (h : KnownItems c₀ slaves d) (hd : call.run d = some d') :
    KnownItems c₀ slaves d' := by
  obtain ⟨hsame, hkept⟩ := item_run h.stale hd
  refine ⟨h.toKnown.run hd, fun host hnot => ?_⟩
  rw [hsame] at hnot
  rw [hkept host hnot, h.items host hnot]

theorem KnownItems.refresh (h : KnownItems c₀ slaves d) :
    KnownItems c₀ slaves d.refreshDomainMap :=
  KnownItems.run h (show HostCall.refresh.run d = _ from rfl)

theorem KnownItems.runCalls {calls : List HostCall} (h : KnownItems c₀ slaves d)
    (hd : runCalls calls d = some d') : KnownItems c₀ slaves d' :=
  Machine.foldlM_invariant (fun _ _ _ hs hrun => KnownItems.run hs hrun) h hd

theorem built_spec {hosts : List Text} (h : HostList hosts) {rule : CrushRule} {count : UInt8}
    (hcmap : d.cmap = .new rule (count - 1)) (hcount : d.replicationCount = count)
    (honline : d.onlineNodeList = hosts.filter (endsInSlave · = some false))
    (hmap : ∀ master, master ∈ d.domainMap ↔ slaveOf master ∈ hosts) :
    KnownItems (d.cmap.build (slavesOf d.domainMap)) (slavesOf d.domainMap)
        { d with cmap := d.cmap.build (slavesOf d.domainMap) }
      ∧ (∀ host, host ∈ slavesOf d.domainMap ↔ host ∈ hosts ∧ endsInSlave host = some true)
      ∧ ∀ host, IsOnline { d with cmap := d.cmap.build (slavesOf d.domainMap) } host
        ↔ host ∈ hosts := by
  have hempty : d.cmap.hostMap = ∅ := by rw [hcmap]; rfl
  have hstale := stale_build hempty (by rw [hcmap, hcount]; rfl)
  have hindexed : Indexed (d.cmap.build (slavesOf d.domainMap)) (slavesOf d.domainMap) := by
    rw [hcmap]
    exact indexed_build rule (count - 1) Std.TreeMap.nodup_keys
  have hmaster : ∀ host ∈ hosts, endsInSlave host = some true →
      ∃ master, endsInSlave master = some false ∧ host = slaveOf master := fun host hhost hslave =>
    (h.names host hhost).resolve_left fun hnot => by simp [hslave] at hnot
  have hmem : ∀ host, host ∈ slavesOf d.domainMap
      ↔ host ∈ hosts ∧ endsInSlave host = some true := by
    intro host
    rw [mem_slavesOf]
    constructor
    · intro ⟨master, hin, heq⟩
      rw [← heq]
      exact ⟨(hmap master).mp hin, endsInSlave_slaveOf master⟩
    · intro ⟨hhost, hslave⟩
      obtain ⟨master, -, rfl⟩ := hmaster host hhost hslave
      exact ⟨master, (hmap master).mpr hhost, rfl⟩
  have hlist : ∀ host, host ∈ d.onlineNodeList ↔ host ∈ hosts ∧ endsInSlave host = some false := by
    intro host
    rw [honline, mem_filter, decide_eq_true_eq]
  refine ⟨⟨⟨hstale, rfl, hindexed, fun host hhost => ?_, ?_, fun host hhost => ?_⟩,
    fun host hnot => ?_⟩, hmem, fun host => ?_⟩
  · obtain ⟨hhost, hslave⟩ := (hmem host).mp hhost
    exact hmaster host hhost hslave
  · dsimp only
    rw [honline]
    exact h.nodup.filter _
  · exact ((hlist host).mp hhost).2
  · refine Option.eq_none_iff_forall_ne_some.mpr fun item hitem => hnot ?_
    exact (mem_build hempty _).mpr ⟨host, OrderedMap.mem_iff.mpr ⟨item, hitem⟩, rfl⟩
  · unfold IsOnline
    by_cases hslave : endsInSlave host = some true
    · rw [if_pos hslave]
      -- every weight is the one `finalize_host_tree` gave it
      have hweighs : Weighs (d.cmap.build (slavesOf d.domainMap)) host
          ↔ host ∈ slavesOf d.domainMap := by
        rw [← hindexed.mem_iff, OrderedMap.mem_iff]
        refine exists_congr fun i => ⟨fun ⟨w, hi, _⟩ => hi, fun hi => ⟨0x10000, hi, ?_, by decide⟩⟩
        have hlt := hindexed.lt hi
        rw [getElem?_eq_getElem hlt]
        exact congrArg some (getElem_replicate _)
      exact hweighs.trans ((hmem host).trans (and_iff_left hslave))
    · rw [if_neg hslave]
      refine (hlist host).trans (and_iff_left_of_imp fun hhost => ?_)
      refine (h.names host hhost).resolve_right fun ⟨master, _, heq⟩ => hslave ?_
      rw [heq]
      exact endsInSlave_slaveOf master

/-- **The first map.** -/
theorem domainMap_new {hosts : List Text} (h : HostList hosts) (rule : CrushRule) (count : UInt8) :
    ∃ d, HDCSDomainMap.new rule hosts count = some d
      ∧ ∃ c₀ slaves, c₀.rule = rule ∧ c₀.replicationCount = count - 1
        ∧ KnownItems c₀ slaves d.generateDomainMap
        ∧ d.generateDomainMap.cmap.weights
          = List.replicate d.generateDomainMap.cmap.hostCount 0x10000
        ∧ (∀ host, host ∈ slaves ↔ host ∈ hosts ∧ endsInSlave host = some true)
        ∧ ∀ host, IsOnline d.generateDomainMap host ↔ host ∈ hosts := by
  have hnames : ∀ host ∈ hosts, endsInSlave host = some false ∨ ∃ master, host = slaveOf master :=
    fun host hhost => (h.names host hhost).imp_right fun ⟨master, _, heq⟩ => ⟨master, heq⟩
  obtain ⟨d, hd, hcmap, hcount, honline, hmap⟩ := foldlM_insertHost hnames
    ⟨∅, count, .new rule (count - 1), []⟩
  obtain ⟨hkept, hmem, hup⟩ := built_spec h hcmap hcount honline fun master =>
    (hmap master).trans (or_iff_left Std.TreeMap.not_mem_emptyc)
  obtain ⟨hrule, hrep⟩ := foldl_addHost_eq (slavesOf d.domainMap) d.cmap
  obtain ⟨m, hm, -⟩ := refreshDomainMap_eq hkept.stale
  have hgen : d.generateDomainMap = { d with
      domainMap := m
      cmap := d.cmap.build (slavesOf d.domainMap) } := hm
  refine ⟨d, hd, d.cmap.build (slavesOf d.domainMap), _, hrule.trans (by rw [hcmap]; rfl),
    hrep.trans (by rw [hcmap]; rfl), hkept.refresh, by rw [hgen]; rfl, hmem, fun host => ?_⟩
  exact (isOnline_refresh hkept.stale).trans (hup host)

/-! ## What an item holds -/

def HostCall.up (up : Finset Text) : HostCall → Finset Text
  | .offline host => up.erase host
  | .online host => insert host up
  | .refresh => up

/-- Who is up after some calls, where everyone was in the beginning. -/
def upAfter (hosts : List Text) (calls : List HostCall) : Finset Text :=
  calls.foldl HostCall.up hosts.toFinset

theorem isOnline_runCalls {hosts : List Text} {calls : List HostCall}
    (hslaves : ∀ host ∈ hosts, endsInSlave host = some true → host ∈ slaves)
    (hlisted : ∀ call ∈ calls, call.Listed hosts) {up : Finset Text} (h : Known c₀ slaves d)
    (hup : ∀ host, IsOnline d host ↔ host ∈ up) (hd : runCalls calls d = some d') (host : Text) :
    IsOnline d' host ↔ host ∈ calls.foldl HostCall.up up := by
  induction calls generalizing d up with
  | nil =>
    cases hd
    exact hup host
  | cons call calls ih =>
    rw [runCalls_cons] at hd
    obtain ⟨d₁, hd₁, hd⟩ := Option.bind_eq_some_iff.mp hd
    refine ih (fun c hc => hlisted c (mem_cons_of_mem _ hc)) (h.run hd₁) (fun k => ?_) hd
    cases call with
    | offline x =>
      rw [isOnline_offlineHost h hd₁, hup]
      exact (and_comm.trans Finset.mem_erase.symm)
    | online x =>
      have hx := hslaves x (hlisted _ mem_cons_self)
      rw [isOnline_onlineHost h hd₁, hup, and_iff_left hx]
      exact (or_comm.trans Finset.mem_insert.symm)
    | refresh =>
      rw [← Option.some.inj hd₁, isOnline_refresh h.stale]
      exact hup k

/-- The item of a master: itself and some slaves, all of them up; nothing if it is down. -/
def SoundItem (up : Finset Text) (count : UInt8) (master : Text) (item : List Text) : Prop :=
  (master ∉ up → item = [])
  ∧ (master ∈ up → ∃ names, item = master :: names ∧ names.length ≤ count.toNat - 1
    ∧ names.Nodup
    ∧ ∀ name ∈ names, name ∈ up ∧ endsInSlave name = some true ∧ name ≠ slaveOf master)

theorem itemOf_sound (h : Known c₀ slaves d) (hrule : SoundRule c₀.rule) {count : UInt8}
    (hcount : 2 ≤ count.toNat) (hrep : c₀.replicationCount = count - 1) {up : Finset Text}
    (hup : ∀ host, IsOnline d host ↔ host ∈ up) {master : Text}
    (hmaster : slaveOf master ∈ slaves) : SoundItem up count master (itemOf d master) := by
  have hends : endsInSlave master = some false := by
    obtain ⟨master', hends, heq⟩ := h.slaves _ hmaster
    rwa [slaveOf_injective heq]
  have honline : master ∈ d.onlineNodeList ↔ master ∈ up := by
    rw [← hup]
    unfold IsOnline
    rw [if_neg (by rw [hends]; decide)]
  have hrule : SoundRule d.cmap.rule := by
    rw [h.cmap]
    exact hrule
  obtain ⟨hnodup, hnames⟩ := domainOf_sound h.indexed hrule (slaveOf master)
  have hlen := length_domainOf_le d.cmap (slaveOf master)
  have hone : (1 : UInt8) ≤ count := UInt8.le_iff_toNat_le.mpr (Nat.le_of_succ_le hcount)
  have hrep : d.cmap.replicationCount.toNat = count.toNat - 1 := by
    rw [h.cmap]
    dsimp only
    rw [hrep, UInt8.toNat_sub_of_le _ _ hone, UInt8.toNat_one]
  unfold itemOf HDCSDomainMap.refreshItem
  constructor
  · intro hnot
    rw [if_neg (mt honline.mp hnot)]
  · intro hin
    rw [if_pos (honline.mpr hin)]
    refine ⟨_, rfl, hrep ▸ hlen, hnodup, fun name hname => ?_⟩
    obtain ⟨hslave, hweighs, hne⟩ := hnames name hname
    obtain ⟨master', -, rfl⟩ := h.slaves name hslave
    have hends := endsInSlave_slaveOf master'
    refine ⟨(hup _).mp ?_, hends, hne⟩
    unfold IsOnline
    rw [if_pos hends]
    exact hweighs

theorem upAfter_refreshed (hosts : List Text) (calls : List HostCall) :
    upAfter hosts (calls.flatMap fun call => [call, .refresh]) = upAfter hosts calls := by
  unfold upAfter
  rw [foldl_flatMap]
  rfl

theorem runCalls_refresh (calls : List HostCall) (d : HDCSDomainMap) :
    runCalls (calls ++ [.refresh]) d = (runCalls calls d).map HDCSDomainMap.refreshDomainMap := by
  rw [runCalls_append]
  cases runCalls calls d with
  | none | some d' => rfl

theorem fresh_refreshed (h : KnownItems c₀ slaves d) (hfresh : Fresh d) (calls : List HostCall)
    (hd : runCalls (calls.flatMap fun call => [call, .refresh]) d = some d') : Fresh d' := by
  induction calls using List.reverseRecOn with
  | nil =>
    cases hd
    exact hfresh
  | append_singleton calls call _ =>
    have hsplit : (calls ++ [call]).flatMap (fun call => [call, HostCall.refresh])
        = (calls.flatMap (fun call => [call, HostCall.refresh]) ++ [call]) ++ [.refresh] := by
      rw [flatMap_append, append_assoc]
      rfl
    rw [hsplit, runCalls_refresh] at hd
    obtain ⟨d₁, hd₁, rfl⟩ := Option.map_eq_some_iff.mp hd
    exact fresh_refreshDomainMap (h.runCalls hd₁).stale

end Calls

theorem isOnline_upAfter {rule : CrushRule} {hosts : List Text} (hhosts : HostList hosts)
    {count : UInt8} {d₀ d : HDCSDomainMap} (hd₀ : HDCSDomainMap.new rule hosts count = some d₀)
    {calls : List HostCall} (hlisted : ∀ call ∈ calls, call.Listed hosts)
    (hd : runCalls calls d₀.generateDomainMap = some d) (host : Text) :
    IsOnline d host ↔ host ∈ upAfter hosts calls := by
  obtain ⟨d₁, hd₁, c₀, slaves, -, -, hkept, -, hslaves, hup⟩ := domainMap_new hhosts rule count
  obtain rfl : d₀ = d₁ := Option.some.inj (hd₀.symm.trans hd₁)
  refine isOnline_runCalls (fun k hk hslave => (hslaves k).mpr ⟨hk, hslave⟩) hlisted
    hkept.toKnown (fun k => ?_) hd host
  rw [hup, mem_toFinset]

/--
**The items are sound**, after any calls at listed hosts with a refresh after each. And whatever
comes next, the refresh after it leaves the weights as they were, as the first one did.
-/
theorem domainItems_sound (rule : CrushRule) (hrule : SoundRule rule) (hosts : List Text)
    (hhosts : HostList hosts) (count : UInt8) (hcount : 2 ≤ count.toNat) (calls : List HostCall)
    (hlisted : ∀ call ∈ calls, call.Listed hosts) :
    ∃ d₀ d, HDCSDomainMap.new rule hosts count = some d₀
      ∧ d₀.generateDomainMap.cmap.weights
        = List.replicate d₀.generateDomainMap.cmap.hostCount 0x10000
      ∧ runCalls (calls.flatMap fun call => [call, .refresh]) d₀.generateDomainMap = some d
      ∧ (∀ master, slaveOf master ∈ hosts → ∃ item, d.domainMap[master]? = some item
        ∧ SoundItem (upAfter hosts calls) count master item)
      ∧ ∀ call : HostCall, call.Listed hosts → ∃ d', call.run d = some d'
        ∧ d'.refreshDomainMap.cmap.weights = d'.cmap.weights := by
  obtain ⟨d₀, hd₀, c₀, slaves, hc₀, hrep, hkept, hweights, hslaves, -⟩ :=
    domainMap_new hhosts rule count
  have hnamed : ∀ call ∈ calls.flatMap (fun call => [call, HostCall.refresh]),
      call.Listed hosts := by
    intro call hcall
    obtain ⟨x, hx, hcall⟩ := mem_flatMap.mp hcall
    rcases mem_pair.mp hcall with rfl | rfl
    · exact hlisted _ hx
    · trivial
  obtain ⟨d, hd⟩ := runCalls_returns (fun call hcall => (hnamed call hcall).named hhosts)
    d₀.generateDomainMap
  have hkept' := hkept.runCalls hd
  have hfresh := fresh_refreshed hkept (fresh_new hd₀) calls hd
  have honline : ∀ host, IsOnline d host ↔ host ∈ upAfter hosts calls := by
    intro host
    rw [← upAfter_refreshed]
    exact isOnline_upAfter hhosts hd₀ hnamed hd host
  refine ⟨d₀, d, hd₀, hweights, hd, fun master hmaster => ?_, fun call hcall => ?_⟩
  · have hslave := (hslaves _).mpr ⟨hmaster, endsInSlave_slaveOf master⟩
    exact ⟨_, hfresh.listed master (hkept'.indexed.mem_iff.mpr hslave),
      itemOf_sound hkept'.toKnown (hc₀ ▸ hrule) hcount hrep honline hslave⟩
  · obtain ⟨d', hd'⟩ := (hcall.named hhosts).returns d
    exact ⟨d', hd', refreshDomainMap_weights (hkept'.toKnown.run hd').stale⟩

theorem soundRule_firstRule : SoundRule firstRule where
  nodup _ _ _ := (nodup_range.filter _).sublist (take_sublist _ _)
  weight resultMax x weights i hi := by
    obtain ⟨hlt, hne⟩ := mem_filter.mp (mem_of_mem_take hi)
    have hlt := mem_range.mp hlt
    rw [decide_eq_true_eq, getD_eq_getElem _ _ hlt] at hne
    exact ⟨_, getElem?_eq_getElem hlt, hne⟩

/-- Two masters with a slave each. -/
def twoPairs : List Text :=
  [ascii "node1", ascii "node1_slave", ascii "node2", ascii "node2_slave"]

theorem hostList_twoPairs : HostList twoPairs where
  nodup := by decide
  names host hhost := by
    simp only [twoPairs, mem_cons, not_mem_nil, or_false] at hhost
    rcases hhost with rfl | rfl | rfl | rfl
    · exact .inl (by decide)
    · exact .inr ⟨ascii "node1", by decide, by decide⟩
    · exact .inl (by decide)
    · exact .inr ⟨ascii "node2", by decide, by decide⟩

/-- One slave is taken offline. -/
theorem domainItems_twoPairs :
    ∃ d₀ d, HDCSDomainMap.new firstRule twoPairs 2 = some d₀
      ∧ runCalls [.offline (ascii "node2_slave"), .refresh] d₀.generateDomainMap = some d
      ∧ ∃ item, d.domainMap[ascii "node1"]? = some item
        ∧ SoundItem (upAfter twoPairs [.offline (ascii "node2_slave")]) 2 (ascii "node1")
          item := by
  obtain ⟨d₀, d, hd₀, -, hd, hitems, -⟩ := domainItems_sound firstRule soundRule_firstRule twoPairs
    hostList_twoPairs 2 (by decide) [.offline (ascii "node2_slave")] fun call hcall => by
      rw [mem_singleton.mp hcall]
      exact show ascii "node2_slave" ∈ twoPairs by decide
  exact ⟨d₀, d, hd₀, hd, hitems (ascii "node1") (by decide)⟩

/-! ## Two histories -/

section Histories

variable {c₀ : CrushMapGenerator} {slaves : List Text} {d d' : HDCSDomainMap}

/-- **The map depends only on who is online.** -/
theorem domainMap_eq (h : KnownItems c₀ slaves d) (h' : KnownItems c₀ slaves d')
    (hsame : ∀ host, IsOnline d host ↔ IsOnline d' host) :
    d.refreshDomainMap.domainMap.toList = d'.refreshDomainMap.domainMap.toList := by
  have hweighs : ∀ host, Weighs d.cmap host ↔ Weighs d'.cmap host := by
    intro host
    have hmem : ∀ {d : HDCSDomainMap}, Known c₀ slaves d → Weighs d.cmap host →
        endsInSlave host = some true := by
      intro d h ⟨i, _, hi, _⟩
      obtain ⟨master, -, rfl⟩ :=
        h.slaves host (h.indexed.mem_iff.mp (OrderedMap.mem_iff.mpr ⟨i, hi⟩))
      exact endsInSlave_slaveOf master
    by_cases hslave : endsInSlave host = some true
    · have := hsame host
      unfold IsOnline at this
      rwa [if_pos hslave, if_pos hslave] at this
    · exact iff_of_false (mt (hmem h.toKnown) hslave) (mt (hmem h'.toKnown) hslave)
  have hcmap : d.cmap = d'.cmap := by
    rw [h.cmap, h'.cmap, weights_eq h.indexed h'.indexed h.stale.weights h'.stale.weights hweighs]
  obtain ⟨m, heq, hm⟩ := refreshDomainMap_eq h.stale
  obtain ⟨m', heq', hm'⟩ := refreshDomainMap_eq h'.stale
  rw [heq, heq']
  refine (Std.TreeMap.Equiv.of_forall_constGet?_eq fun host => ?_).toList_eq
  refine (hm host).trans ((hm' host).trans ?_).symm
  rw [← hcmap]
  by_cases hlisted : slaveOf host ∈ d.cmap.hostMap
  · rw [if_pos hlisted, if_pos hlisted]
    -- the master is online in both or in none
    obtain ⟨master, hmaster, hslave⟩ := h.slaves _ (h.indexed.mem_iff.mp hlisted)
    have hmaster : ¬ endsInSlave host = some true := by
      rw [slaveOf_injective hslave, hmaster]
      decide
    have honline := hsame host
    unfold IsOnline at honline
    rw [if_neg hmaster, if_neg hmaster] at honline
    unfold itemOf HDCSDomainMap.refreshItem
    rw [← hcmap]
    simp only [honline]
  · rw [if_neg hlisted, if_neg hlisted, h.items host hlisted, h'.items host (hcmap ▸ hlisted)]

theorem isOnline_restored {d₁ d₂ : HDCSDomainMap} {host : Text} (h : Known c₀ slaves d)
    (hhost : IsOnline d host) (hd₁ : d.offlineHost host = some d₁)
    (hd₂ : d₁.refreshDomainMap.onlineHost host = some d₂) (other : Text) :
    IsOnline d₂ other ↔ IsOnline d other := by
  have h₁ := h.offlineHost hd₁
  have hslave : endsInSlave host = some true → host ∈ slaves := by
    intro hslave
    unfold IsOnline at hhost
    rw [if_pos hslave] at hhost
    obtain ⟨i, _, hi, _⟩ := hhost
    exact h.indexed.mem_iff.mp (OrderedMap.mem_iff.mpr ⟨i, hi⟩)
  rw [isOnline_onlineHost h₁.refresh hd₂, isOnline_refresh h₁.stale, isOnline_offlineHost h hd₁,
    and_iff_left hslave]
  by_cases heq : other = host
  · simp [heq, hhost]
  · simp [heq]

theorem Known.named {host : Text} (h : Known c₀ slaves d) (hhost : IsOnline d host) :
    5 ≤ host.length := by
  unfold IsOnline at hhost
  split at hhost
  · rename_i hslave
    exact length_of_endsInSlave hslave
  · exact length_of_endsInSlave (h.masters host hhost)

end Histories

/--
**The domain map depends only on who is up**: two histories that end with a refresh, and leave the
same hosts online, leave the same map. So a host that goes and comes back restores it.
-/
theorem domainMap_of_online (rule : CrushRule) (hosts : List Text) (hhosts : HostList hosts)
    (count : UInt8) (calls calls' : List HostCall)
    (hnamed : (∀ call ∈ calls, call.Named) ∧ ∀ call ∈ calls', call.Named) :
    ∃ d₀ d d', HDCSDomainMap.new rule hosts count = some d₀
      ∧ runCalls (calls ++ [.refresh]) d₀.generateDomainMap = some d
      ∧ runCalls (calls' ++ [.refresh]) d₀.generateDomainMap = some d'
      ∧ ((∀ host, IsOnline d host ↔ IsOnline d' host) → d.domainMap.toList = d'.domainMap.toList)
      ∧ ∀ host, IsOnline d host →
        ∃ d'', runCalls [.offline host, .refresh, .online host, .refresh] d = some d''
          ∧ d''.domainMap.toList = d.domainMap.toList := by
  obtain ⟨d₀, hd₀, c₀, slaves, -, -, hkept, -⟩ := domainMap_new hhosts rule count
  obtain ⟨d, hd⟩ := runCalls_returns hnamed.1 d₀.generateDomainMap
  obtain ⟨d', hd'⟩ := runCalls_returns hnamed.2 d₀.generateDomainMap
  have h := hkept.runCalls hd
  have h' := hkept.runCalls hd'
  refine ⟨d₀, _, _, hd₀, by rw [runCalls_refresh, hd]; rfl, by rw [runCalls_refresh, hd']; rfl,
    fun hsame => ?_, fun host hhost => ?_⟩
  · refine domainMap_eq h h' fun host => ?_
    rw [← isOnline_refresh h.stale, ← isOnline_refresh h'.stale]
    exact hsame host
  · have hlen := h.toKnown.refresh.named hhost
    obtain ⟨d₁, hd₁⟩ := (show (HostCall.offline host).Named from hlen).returns d.refreshDomainMap
    obtain ⟨d₂, hd₂⟩ := (show (HostCall.online host).Named from hlen).returns d₁.refreshDomainMap
    have h₂ := (KnownItems.refresh (h.refresh.run hd₁)).run hd₂
    refine ⟨d₂.refreshDomainMap, ?_, domainMap_eq h₂ h fun other => ?_⟩
    · rw [runCalls_cons, hd₁, Option.bind_some, runCalls_cons]
      show runCalls [.online host, .refresh] d₁.refreshDomainMap = _
      rw [runCalls_cons, hd₂]
      rfl
    · rw [isOnline_restored h.toKnown.refresh hhost hd₁ hd₂, isOnline_refresh h.stale]

/-- A slave goes and comes back, or nothing happens at all: the maps are the same. -/
theorem domainMap_twoPairs :
    ∃ d₀ d d', HDCSDomainMap.new firstRule twoPairs 2 = some d₀
      ∧ runCalls [.offline (ascii "node2_slave"), .refresh, .online (ascii "node2_slave"),
        .refresh] d₀.generateDomainMap = some d
      ∧ runCalls [.refresh] d₀.generateDomainMap = some d'
      ∧ d.domainMap.toList = d'.domainMap.toList := by
  have hlen : 5 ≤ (ascii "node2_slave").length := by decide
  have hlisted : ascii "node2_slave" ∈ twoPairs := by decide
  obtain ⟨d₀, d, d', hd₀, hd, hd', hsame, -⟩ := domainMap_of_online firstRule twoPairs
    hostList_twoPairs 2
    [.offline (ascii "node2_slave"), .refresh, .online (ascii "node2_slave")] []
    ⟨by simp [HostCall.Named, hlen], by simp⟩
  refine ⟨d₀, d, d', hd₀, hd, hd', hsame fun host => ?_⟩
  rw [isOnline_upAfter hostList_twoPairs hd₀ (by simp [HostCall.Listed, hlisted]) hd,
    isOnline_upAfter hostList_twoPairs hd₀ (by simp [HostCall.Listed]) hd']
  have hup : upAfter twoPairs [.offline (ascii "node2_slave"), .refresh,
      .online (ascii "node2_slave"), .refresh] = upAfter twoPairs [.refresh] :=
    Finset.insert_erase (mem_toFinset.mpr hlisted)
  exact Iff.of_eq (congrArg (host ∈ ·) hup)

end HDCS.Proof
