import HDCS.Core.HAManager
import HDCS.Lib.Machine
import HDCS.Lib.OrderedMap

/-!
# What the domain map says

The item of a master that has a slave is made anew by every refresh: it is empty while the master
is offline, and begins with the master while it is online (`Fresh`). Any other master gets as many
empty names as there are to be replicas. A slave has no item.

A refresh leaves the weights as they were, because a weight is always one of two.
-/

namespace HDCS.Proof

open Lib Lib.Machine List

/-! ## What is chosen for a host -/

section Chosen

variable {c : CrushMapGenerator}

def TwoWeights (c : CrushMapGenerator) : Prop := ∀ w ∈ c.weights, w = 0 ∨ w = 0x10000

def domainOf (c : CrushMapGenerator) (host : Text) : List Text := (c.getHostDomain host).1

theorem getHostDomain_snd (hw : TwoWeights c) (host : Text) : (c.getHostDomain host).2 = c := by
  unfold CrushMapGenerator.getHostDomain
  cases hindex : c.hostMap[host]? with
  | none => rfl
  | some index =>
    dsimp only
    by_cases hlt : index < c.weights.length
    · by_cases hzero : c.weights[index] = 0
      · have hsame : c.weights.set index 0 = c.weights := by
          rw [← hzero, set_getElem_self]
        rw [if_neg (by simp [getElem?_eq_getElem hlt, hzero]), hsame]
      · have hfull : c.weights[index] = 0x10000 :=
          (hw _ (getElem_mem hlt)).resolve_left hzero
        have hsame : (c.weights.set index 0).set index 0x10000 = c.weights := by
          rw [set_set, ← hfull, set_getElem_self]
        rw [if_pos (by simp [getElem?_eq_getElem hlt, hzero]), hsame]
    · have hset : ∀ n, c.weights.set index n = c.weights := fun n =>
        set_eq_of_length_le (Nat.le_of_not_lt hlt)
      rw [if_pos (by simp [getElem?_eq_none (Nat.le_of_not_lt hlt)]), hset, hset]

theorem foldl_getHostDomain (hw : TwoWeights c) :
    ∀ (hosts : List Text) (m : Std.TreeMap Text (List Text)),
      hosts.foldl (fun x host => (x.1.insert host (x.2.getHostDomain host).1,
          (x.2.getHostDomain host).2)) (m, c)
        = (hosts.foldl (fun m host => m.insert host (domainOf c host)) m, c)
  | [], _ => rfl
  | host :: hosts, m => by
    rw [foldl_cons, foldl_cons, getHostDomain_snd hw]
    exact foldl_getHostDomain hw hosts _

theorem get_snd (hw : TwoWeights c) : c.get.2 = c := by
  rw [CrushMapGenerator.get, Std.TreeMap.foldl_eq_foldl_keys, foldl_getHostDomain hw]

theorem getElem?_get (hw : TwoWeights c) (host : Text) :
    c.get.1[host]? = if host ∈ c.hostMap then some (domainOf c host) else none := by
  rw [CrushMapGenerator.get, Std.TreeMap.foldl_eq_foldl_keys, foldl_getHostDomain hw]
  have hloop := OrderedMap.getElem?_foldl_insert id (domainOf c) host c.hostMap.keys ∅
  rw [map_id] at hloop
  simp only [Std.TreeMap.mem_keys] at hloop
  exact hloop

theorem length_nameAll (c : CrushMapGenerator) (result : List Nat) :
    (c.nameAll result).length = result.length := by
  rw [CrushMapGenerator.nameAll, Std.TreeMap.foldl_eq_foldl_toList]
  refine foldl_invariant (I := fun _ (item : List Text) => item.length = result.length)
    length_replicate (fun _ x item hitem => ?_) _
  rw [length_map, length_zip, hitem, Nat.min_self]

theorem length_domainOf_le (c : CrushMapGenerator) (host : Text) :
    (domainOf c host).length ≤ c.replicationCount.toNat := by
  unfold domainOf CrushMapGenerator.getHostDomain
  split
  · exact Nat.zero_le _
  · dsimp only
    rw [length_nameAll]
    exact c.rule.length_doRule_le _ _ _

theorem twoWeights_setWeight {weight : Nat} (hw : TwoWeights c) (h : weight = 0 ∨ weight = 0x10000)
    (host : Text) : TwoWeights (c.setWeight host weight) := by
  unfold CrushMapGenerator.setWeight
  split
  · intro w hmem
    rcases mem_or_eq_of_mem_set hmem with hmem | rfl
    · exact hw w hmem
    · exact h
  · exact hw

theorem setWeight_hostMap (c : CrushMapGenerator) (host : Text) (weight : Nat) :
    (c.setWeight host weight).hostMap = c.hostMap := by
  unfold CrushMapGenerator.setWeight
  split <;> rfl

theorem setWeight_replicationCount (c : CrushMapGenerator) (host : Text) (weight : Nat) :
    (c.setWeight host weight).replicationCount = c.replicationCount := by
  unfold CrushMapGenerator.setWeight
  split <;> rfl

end Chosen

/-- The first of the hosts that are in. -/
def firstRule : CrushRule where
  doRule resultMax _ weights :=
    ((List.range weights.length).filter fun i => weights.getD i 0 ≠ 0).take resultMax
  length_doRule_le _ _ _ := length_take_le _ _

/-! ## After a refresh -/

theorem withoutSlave_slaveOf (host : Text) : withoutSlave (slaveOf host) = host := by
  have hlen : (slaveOf host).length = host.length + 6 := length_append
  unfold withoutSlave
  rw [if_neg (by omega), hlen, Nat.add_sub_cancel]
  exact take_left

variable {d d' : HDCSDomainMap}

structure Stale (d : HDCSDomainMap) : Prop where
  slaves : ∀ host ∈ d.cmap.hostMap, ∃ master, host = slaveOf master
  weights : TwoWeights d.cmap
  count : d.cmap.replicationCount = d.replicationCount - 1
  /-- A master without a slave. -/
  other : ∀ host item, slaveOf host ∉ d.cmap.hostMap → d.domainMap[host]? = some item →
    item = List.replicate d.replicationCount.toNat []

def itemOf (d : HDCSDomainMap) (host : Text) : List Text :=
  HDCSDomainMap.refreshItem d.onlineNodeList host (domainOf d.cmap (slaveOf host))

structure Fresh (d : HDCSDomainMap) : Prop extends Stale d where
  listed : ∀ host, slaveOf host ∈ d.cmap.hostMap → d.domainMap[host]? = some (itemOf d host)

def writeItems (online : List Text) (m : Std.TreeMap Text (List Text))
    (hosts : List (Text × List Text)) : Std.TreeMap Text (List Text) :=
  hosts.foldl (fun m x => m.insert (withoutSlave x.1)
    (HDCSDomainMap.refreshItem online (withoutSlave x.1) x.2)) m

theorem foldl_refreshHost (hosts : List (Text × List Text)) (d : HDCSDomainMap) :
    hosts.foldl (fun d x => d.refreshHost (withoutSlave x.1) x.2) d
      = { d with domainMap := writeItems d.onlineNodeList d.domainMap hosts } := by
  induction hosts generalizing d with
  | nil => rfl
  | cons x hosts ih =>
    rw [foldl_cons, ih]
    rfl

/-- **A refresh.** -/
theorem refreshDomainMap_eq (h : Stale d) : ∃ m, d.refreshDomainMap = { d with domainMap := m }
    ∧ ∀ host, m[host]? = if slaveOf host ∈ d.cmap.hostMap then some (itemOf d host)
        else d.domainMap[host]? := by
  unfold HDCSDomainMap.refreshDomainMap
  dsimp only
  rw [Std.TreeMap.foldl_eq_foldl_toList, foldl_refreshHost, get_snd h.weights]
  refine ⟨_, rfl, fun host => ?_⟩
  -- the item that belongs to a slave is the one that is chosen for it
  have hitems : ∀ x ∈ d.cmap.get.1.toList, x.1 ∈ d.cmap.hostMap ∧ x.2 = domainOf d.cmap x.1 := by
    intro x hx
    have hx := Std.TreeMap.mem_toList_iff_getElem?_eq_some.mp hx
    rw [getElem?_get h.weights] at hx
    split at hx
    · exact ⟨by assumption, (Option.some.inj hx).symm⟩
    · cases hx
  have hloop : writeItems d.onlineNodeList d.domainMap d.cmap.get.1.toList
      = d.cmap.get.1.toList.foldl (fun m x => m.insert (withoutSlave x.1)
          (itemOf d (withoutSlave x.1))) d.domainMap := by
    refine foldl_ext _ _ _ fun m x hx => ?_
    obtain ⟨hmem, hitem⟩ := hitems x hx
    obtain ⟨master, hmaster⟩ := h.slaves x.1 hmem
    rw [hitem, hmaster, withoutSlave_slaveOf]
    rfl
  have hmem : host ∈ d.cmap.get.1.toList.map (fun x => withoutSlave x.1)
      ↔ slaveOf host ∈ d.cmap.hostMap := by
    constructor
    · intro hmem
      obtain ⟨x, hx, rfl⟩ := mem_map.mp hmem
      obtain ⟨master, hmaster⟩ := h.slaves x.1 (hitems x hx).1
      rw [hmaster, withoutSlave_slaveOf, ← hmaster]
      exact (hitems x hx).1
    · intro hmem
      refine mem_map.mpr ⟨(slaveOf host, domainOf d.cmap (slaveOf host)), ?_,
        withoutSlave_slaveOf host⟩
      rw [Std.TreeMap.mem_toList_iff_getElem?_eq_some, getElem?_get h.weights, if_pos hmem]
  rw [hloop, OrderedMap.getElem?_foldl_insert (fun x : Text × List Text => withoutSlave x.1)
    (itemOf d)]
  simp only [hmem]

theorem fresh_refreshDomainMap (h : Stale d) : Fresh d.refreshDomainMap := by
  obtain ⟨m, heq, hm⟩ := refreshDomainMap_eq h
  rw [heq]
  refine ⟨⟨h.slaves, h.weights, h.count, fun host item hnot hitem => ?_⟩, fun host hlisted => ?_⟩
  · have hitem : m[host]? = some item := hitem
    rw [hm host, if_neg hnot] at hitem
    exact h.other host item hnot hitem
  · show m[host]? = _
    rw [hm host, if_pos hlisted]
    rfl

theorem stale_setWeight (h : Stale d) {weight : Nat} (hw : weight = 0 ∨ weight = 0x10000)
    (host : Text) : Stale { d with cmap := d.cmap.setWeight host weight } := by
  refine ⟨?_, twoWeights_setWeight h.weights hw host, ?_, ?_⟩
  · rw [setWeight_hostMap]
    exact h.slaves
  · rw [setWeight_replicationCount]
    exact h.count
  · rw [setWeight_hostMap]
    exact h.other

theorem stale_offlineHost {host : Text} (h : Stale d) (hd : d.offlineHost host = some d') :
    Stale d' := by
  obtain ⟨slave, -, rfl⟩ := Option.map_eq_some_iff.mp hd
  split
  · exact stale_setWeight h (Or.inl rfl) host
  · exact ⟨h.slaves, h.weights, h.count, h.other⟩

theorem stale_onlineHost {host : Text} (h : Stale d) (hd : d.onlineHost host = some d') :
    Stale d' := by
  obtain ⟨slave, -, rfl⟩ := Option.map_eq_some_iff.mp hd
  split
  · exact stale_setWeight h (Or.inr rfl) host
  · split
    · exact h
    · exact ⟨h.slaves, h.weights, h.count, h.other⟩

/-! ## The first map -/

theorem mem_foldl_addHost {host : Text} : ∀ (hosts : List Text) (c : CrushMapGenerator),
    host ∈ (hosts.foldl CrushMapGenerator.addHost c).hostMap ↔ host ∈ hosts ∨ host ∈ c.hostMap
  | [], c => by simp
  | x :: hosts, c => by
    have hadd : host ∈ (c.addHost x).hostMap ↔ host = x ∨ host ∈ c.hostMap := by
      unfold CrushMapGenerator.addHost
      split
      · rename_i hx
        exact (or_iff_right_of_imp fun heq => heq ▸ hx).symm
      · rw [OrderedMap.mem_insert, eq_comm]
    rw [foldl_cons, mem_foldl_addHost hosts, hadd, mem_cons]
    tauto

theorem foldl_addHost_eq (hosts : List Text) (c : CrushMapGenerator) :
    (hosts.foldl CrushMapGenerator.addHost c).rule = c.rule
      ∧ (hosts.foldl CrushMapGenerator.addHost c).replicationCount = c.replicationCount := by
  refine foldl_invariant (I := fun _ (c' : CrushMapGenerator) =>
    c'.rule = c.rule ∧ c'.replicationCount = c.replicationCount) ⟨rfl, rfl⟩
    (fun _ x c' hc => ?_) hosts
  unfold CrushMapGenerator.addHost
  split
  · exact hc
  · exact hc

def slavesOf (m : Std.TreeMap Text (List Text)) : List Text :=
  (m.foldl (fun hosts host _ => hosts.insert (slaveOf host) ()) (∅ : Std.TreeMap Text Unit)).keys

theorem mem_slavesOf (m : Std.TreeMap Text (List Text)) (host : Text) :
    host ∈ slavesOf m ↔ ∃ master ∈ m, slaveOf master = host := by
  unfold slavesOf
  rw [Std.TreeMap.foldl_eq_foldl_keys, Std.TreeMap.mem_keys, OrderedMap.mem_iff,
    OrderedMap.getElem?_foldl_insert slaveOf (fun _ => ())]
  have hmem : host ∈ m.keys.map slaveOf ↔ ∃ master ∈ m, slaveOf master = host := by
    rw [mem_map]
    simp only [Std.TreeMap.mem_keys]
  rw [← hmem]
  split
  · exact iff_of_true ⟨(), rfl⟩ (by assumption)
  · exact iff_of_false (fun ⟨v, hv⟩ => nomatch hv) (by assumption)

theorem mem_build (hempty : d.cmap.hostMap = ∅) (host : Text) :
    host ∈ (d.cmap.build (slavesOf d.domainMap)).hostMap
      ↔ ∃ master ∈ d.domainMap, slaveOf master = host := by
  rw [← mem_slavesOf]
  refine (mem_foldl_addHost _ _).trans (or_iff_left ?_)
  rw [hempty]
  exact Std.TreeMap.not_mem_emptyc

theorem stale_build (hempty : d.cmap.hostMap = ∅)
    (hcount : d.cmap.replicationCount = d.replicationCount - 1) :
    Stale { d with cmap := d.cmap.build (slavesOf d.domainMap) } := by
  refine ⟨fun host hmem => ?_, fun w hw => ?_, ?_, fun host item hnot hitem => ?_⟩
  · obtain ⟨master, -, hslave⟩ := (mem_build hempty host).mp hmem
    exact ⟨master, hslave.symm⟩
  · exact Or.inr (mem_replicate.mp hw).2
  · exact (foldl_addHost_eq _ _).2.trans hcount
  · exact absurd ((mem_build hempty _).mpr ⟨host, OrderedMap.mem_iff.mpr ⟨item, hitem⟩, rfl⟩) hnot

theorem fresh_generateDomainMap (hempty : d.cmap.hostMap = ∅)
    (hcount : d.cmap.replicationCount = d.replicationCount - 1) : Fresh d.generateDomainMap :=
  fresh_refreshDomainMap (stale_build hempty hcount)

theorem fresh_new {rule : CrushRule} {hostList : List Text} {count : UInt8}
    (h : HDCSDomainMap.new rule hostList count = some d) : Fresh d.generateDomainMap := by
  -- the constructor fills the map and the list, and does not touch `libcrush`
  have hkeep : d.cmap = .new rule (count - 1) ∧ d.replicationCount = count := by
    refine foldlM_invariant (I := fun d : HDCSDomainMap =>
      d.cmap = .new rule (count - 1) ∧ d.replicationCount = count) ?_ ⟨rfl, rfl⟩ h
    intro d host d' hd hinsert
    obtain ⟨slave, -, rfl⟩ := Option.map_eq_some_iff.mp hinsert
    split
    · exact hd
    · exact hd
  refine fresh_generateDomainMap ?_ ?_
  · rw [hkeep.1]
    rfl
  · rw [hkeep.1, hkeep.2]
    rfl

/-! ## Who gets an item -/

/-- The item of the host is sent in more than one byte. -/
def HasItem (d : HDCSDomainMap) (host : Text) : Prop :=
  ∃ x, d.getHostDomainItem host = some x ∧ x.1.length % 256 ≠ 0

def Served (d : HDCSDomainMap) (host : Text) : Prop :=
  endsInSlave host = some false ∧
    if slaveOf host ∈ d.cmap.hostMap then
      host ∈ d.onlineNodeList ∧ (1 + (domainOf d.cmap (slaveOf host)).length) % 256 ≠ 0
    else d.replicationCount ≠ 0

theorem hasItem_iff (h : Fresh d) (host : Text) : HasItem d host ↔ Served d host := by
  unfold HasItem Served HDCSDomainMap.getHostDomainItem
  cases hslave : endsInSlave host with
  | none => simp
  | some slave =>
    cases slave with
    | true => simp
    | false =>
      have hblank : (List.replicate d.replicationCount.toNat ([] : Text)).length % 256 ≠ 0
          ↔ d.replicationCount ≠ 0 := by
        rw [length_replicate, Nat.mod_eq_of_lt d.replicationCount.toNat_lt]
        exact not_congr (UInt8.toNat_inj (b := 0))
      by_cases hlisted : slaveOf host ∈ d.cmap.hostMap
      · rw [if_pos hlisted, h.listed host hlisted]
        unfold itemOf HDCSDomainMap.refreshItem
        by_cases honline : host ∈ d.onlineNodeList
        · simp [honline, Nat.add_comm 1]
        · simp [honline]
      · rw [if_neg hlisted, ← hblank]
        cases hitem : d.domainMap[host]? with
        | none => simp
        | some item => simp [h.other host item hlisted hitem]

theorem served_iff_online (h : Stale d) (hcount : d.replicationCount ≠ 0) (host : Text) :
    Served d host ↔ endsInSlave host = some false
      ∧ (slaveOf host ∈ d.cmap.hostMap → host ∈ d.onlineNodeList) := by
  -- there is room for all that can be chosen
  have hlen : (domainOf d.cmap (slaveOf host)).length < 255 := by
    have hle := length_domainOf_le d.cmap (slaveOf host)
    rw [h.count, UInt8.toNat_sub] at hle
    have hpos : 0 < d.replicationCount.toNat :=
      Nat.pos_of_ne_zero fun hzero => hcount (UInt8.toNat_inj.mp hzero)
    have hlt := d.replicationCount.toNat_lt
    rw [UInt8.toNat_one] at hle
    omega
  unfold Served
  by_cases hlisted : slaveOf host ∈ d.cmap.hostMap
  · have hmod : (1 + (domainOf d.cmap (slaveOf host)).length) % 256 ≠ 0 := by omega
    rw [if_pos hlisted, and_iff_left hmod, forall_prop_of_true hlisted]
  · rw [if_neg hlisted, and_iff_left hcount]
    exact (and_iff_left fun hmem => absurd hmem hlisted).symm

theorem getHostDomainItem_cases {host : Text} {x : List Text × HDCSDomainMap}
    (h : d.getHostDomainItem host = some x) :
    x.2 = d ∨ d.domainMap[host]? = none ∧ x.2 = { d with
      domainMap := d.domainMap.insert host (List.replicate d.replicationCount.toNat []) } := by
  obtain ⟨slave, -, rfl⟩ := Option.map_eq_some_iff.mp h
  split
  · exact Or.inl rfl
  · split
    · exact Or.inl rfl
    · exact Or.inr ⟨by assumption, rfl⟩

theorem hasItem_getHostDomainItem {host : Text} {x : List Text × HDCSDomainMap}
    (h : d.getHostDomainItem host = some x) (other : Text) :
    HasItem x.2 other ↔ HasItem d other := by
  rcases getHostDomainItem_cases h with hx | ⟨hnone, hx⟩
  · rw [hx]
  · rw [hx]
    unfold HasItem HDCSDomainMap.getHostDomainItem
    cases endsInSlave other with
    | none => simp
    | some slave =>
      rw [OrderedMap.getElem?_insert]
      by_cases hother : host = other
      · subst hother
        rw [if_pos rfl, hnone]
        cases slave <;> simp
      · rw [if_neg hother]
        cases slave with
        | true => simp
        | false => cases d.domainMap[other]? <;> simp

theorem stale_getHostDomainItem {host : Text} {x : List Text × HDCSDomainMap} (h : Stale d)
    (hx : d.getHostDomainItem host = some x) : Stale x.2 := by
  rcases getHostDomainItem_cases hx with hx | ⟨-, hx⟩
  · rw [hx]
    exact h
  · rw [hx]
    refine ⟨h.slaves, h.weights, h.count, fun other item hnot hitem => ?_⟩
    have hitem : (d.domainMap.insert host _)[other]? = some item := hitem
    rw [OrderedMap.getElem?_insert] at hitem
    split at hitem
    · exact (Option.some.inj hitem).symm
    · exact h.other other item hnot hitem

theorem fresh_getHostDomainItem {host : Text} {x : List Text × HDCSDomainMap} (h : Fresh d)
    (hx : d.getHostDomainItem host = some x) : Fresh x.2 := by
  refine ⟨stale_getHostDomainItem h.toStale hx, ?_⟩
  rcases getHostDomainItem_cases hx with hx | ⟨hnone, hx⟩
  · rw [hx]
    exact h.listed
  · rw [hx]
    intro other hmem
    show (d.domainMap.insert host _)[other]? = _
    have hne : host ≠ other := by
      intro heq
      subst heq
      cases hnone.symm.trans (h.listed host hmem)
    rw [OrderedMap.getElem?_insert, if_neg hne]
    exact h.listed other hmem

/-! ## The map of the manager -/

section Manager

variable {c c' : CoreStatServer} {m m' : HAManager}

theorem fresh_setStatMap {host : Text} {stat : NodeStat} (h : Fresh c.domainMap)
    (hc : c.setStatMap host stat = some c') : Fresh c'.domainMap := by
  unfold CoreStatServer.setStatMap at hc
  split at hc
  · dsimp only at hc
    split at hc
    · obtain ⟨d, hd, rfl⟩ := Option.map_eq_some_iff.mp hc
      exact fresh_refreshDomainMap (stale_offlineHost h.toStale hd)
    · obtain ⟨d, hd, rfl⟩ := Option.map_eq_some_iff.mp hc
      exact fresh_refreshDomainMap (stale_onlineHost h.toStale hd)
    · cases hc
      exact h
  · cases hc

theorem fresh_takeStat {host : Text} {stat : NodeStat} (h : Fresh c.domainMap)
    (hc : c.takeStat host stat = some c') : Fresh c'.domainMap := by
  unfold CoreStatServer.takeStat at hc
  split at hc
  · cases hc
  · split at hc
    · cases hc
      exact h
    · dsimp only at hc
      split at hc
      · obtain ⟨d, hd, rfl⟩ := Option.map_eq_some_iff.mp hc
        exact fresh_refreshDomainMap (stale_offlineHost h.toStale hd)
      · cases hc
        exact h

theorem fresh_coreStatItem {host : Text} {x : List Text × CoreStatServer} (h : Fresh c.domainMap)
    (hx : c.getHostDomainItem host = some x) : Fresh x.2.domainMap := by
  obtain ⟨y, hy, rfl⟩ := Option.map_eq_some_iff.mp hx
  exact fresh_getHostDomainItem h hy

theorem fresh_managerStat {host : Text} {stat : NodeStat} (h : Fresh m.coreStat.domainMap)
    (hm : m.setStatMap host stat = some m') : Fresh m'.coreStat.domainMap := by
  obtain ⟨c, hc, rfl⟩ := Option.map_eq_some_iff.mp hm
  exact fresh_setStatMap h hc

variable {cfg : HAConfig}

theorem fresh_connect {node : Text} (h : Fresh m.coreStat.domainMap)
    (hm : m.connect cfg node = some m') : Fresh m'.coreStat.domainMap := by
  obtain ⟨m₁, hm₁, hm⟩ := Option.bind_eq_some_iff.mp hm
  have hfresh := fresh_managerStat h hm₁
  unfold HAManager.registerHdcsNode at hm
  split at hm
  · cases hm
    exact hfresh
  · obtain ⟨addr, -, rfl⟩ := Option.map_eq_some_iff.mp hm
    exact hfresh

theorem fresh_beforeTimeout (h : Fresh m.coreStat.domainMap)
    (hm : m.beforeTimeout cfg = some m') : Fresh m'.coreStat.domainMap := by
  unfold HAManager.beforeTimeout at hm
  split at hm
  · refine foldlM_invariant (I := fun m : HAManager => Fresh m.coreStat.domainMap) ?_ h hm
    intro m host m' hfresh hround
    split at hround
    · cases hround
      exact hfresh
    · exact fresh_managerStat hfresh hround
  · cases hm
    exact h
  · cases hm

theorem fresh_distribute {x : HAManager × List Outgoing} (h : Fresh m.coreStat.domainMap)
    (hx : m.distributeDomainMap = some x) : Fresh x.1.coreStat.domainMap := by
  refine foldlM_invariant (I := fun x : HAManager × List Outgoing =>
    Fresh x.1.coreStat.domainMap) ?_ h hx
  intro x node y hfresh hround
  obtain ⟨z, hz, rfl⟩ := Option.map_eq_some_iff.mp hround
  exact fresh_coreStatItem hfresh hz

end Manager

end HDCS.Proof
