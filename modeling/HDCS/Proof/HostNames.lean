import HDCS.Proof.Domains

/-!
# Which host names are classified right

A slave is a host whose name ends in `_slave`. What is compared is only `slave`, from a position
that wraps around if the name is shorter, and what is cut off are six characters. So a
name has to have five characters, and if it ends in `slave` the one before has to be the
underscore (`ConsistentName`); then all the functions of the domain map agree on it.

For a list of such names, whatever else they are, no item holds a slave that was taken offline. The
items hold listed hosts only, if every master of the list has its slave there: asked for the
item of another master, `get_host_domain_item` makes one of empty names, and no refresh removes it.
A host that is called `nodeAxslave` would be in the items as `nodeA_slave`, and could not be taken
offline under either name.
-/

namespace HDCS.Proof

open Lib Lib.Machine HDCSDomainMap

variable {host : Text}

/-- The host is meant to be a slave. -/
def IsSlaveName (host : Text) : Prop := ascii "_slave" <:+ host

instance (host : Text) : Decidable (IsSlaveName host) :=
  inferInstanceAs (Decidable (ascii "_slave" <:+ host))

/-- The test does not throw, and there is no `slave` without the underscore. -/
def ConsistentName (host : Text) : Prop :=
  5 ≤ host.length ∧ (ascii "slave" <:+ host → IsSlaveName host)

instance (host : Text) : Decidable (ConsistentName host) := inferInstanceAs (Decidable (_ ∧ _))

/-! ## One name -/

theorem endsInSlave_of_length (hlen : 5 ≤ host.length) :
    endsInSlave host = some (decide (ascii "slave" <:+ host)) := by
  have hfive : (ascii "slave").length = 5 := by decide
  have hsuffix : ascii "slave" <:+ host ↔ host.drop (host.length - 5) = ascii "slave" := by
    rw [List.suffix_iff_eq_drop, hfive, eq_comm]
  unfold endsInSlave
  rw [if_neg (by omega), decide_eq_decide.mpr hsuffix, beq_eq_decide]

theorem isSlaveName_iff : IsSlaveName host ↔ ∃ master, host = slaveOf master := by
  constructor
  · intro ⟨master, heq⟩
    exact ⟨master, heq.symm⟩
  · intro ⟨master, heq⟩
    exact ⟨master, heq.symm⟩

theorem consistentName_iff :
    ConsistentName host ↔ endsInSlave host = some false ∨ ∃ master, host = slaveOf master := by
  rw [← isSlaveName_iff]
  constructor
  · intro ⟨hlen, hunderscore⟩
    by_cases hslave : ascii "slave" <:+ host
    · exact Or.inr (hunderscore hslave)
    · refine Or.inl ?_
      rw [endsInSlave_of_length hlen, decide_eq_false hslave]
  · intro h
    rcases h with hmaster | hslave
    · have hlen := length_of_endsInSlave hmaster
      refine ⟨hlen, fun hsuffix => ?_⟩
      rw [endsInSlave_of_length hlen, decide_eq_true hsuffix] at hmaster
      cases hmaster
    · obtain ⟨master, rfl⟩ := isSlaveName_iff.mp hslave
      exact ⟨length_of_endsInSlave (endsInSlave_slaveOf master), fun _ => hslave⟩

theorem ConsistentName.endsInSlave (h : ConsistentName host) :
    endsInSlave host = some (decide (IsSlaveName host)) := by
  rcases consistentName_iff.mp h with hmaster | ⟨master, rfl⟩
  · have hnot : ¬ IsSlaveName host := by
      intro hslave
      obtain ⟨master, rfl⟩ := isSlaveName_iff.mp hslave
      rw [endsInSlave_slaveOf] at hmaster
      cases hmaster
    rw [hmaster, decide_eq_false hnot]
  · rw [endsInSlave_slaveOf, decide_eq_true (isSlaveName_iff.mpr ⟨master, rfl⟩)]

/-- Every function takes the host for a slave if and only if it is called like one, and the name is
there again when the six characters are put back. -/
structure ClassifiedRight (host : Text) : Prop where
  inserted : ∀ d : HDCSDomainMap, d.insertHost host = some
    (if IsSlaveName host then { d with domainMap := d.domainMap.insert (withoutSlave host) [] }
      else { d with onlineNodeList := d.onlineNodeList ++ [host] })
  offline : ∀ d : HDCSDomainMap, d.offlineHost host = some
    (if IsSlaveName host then { d with cmap := d.cmap.offlineHost host }
      else { d with onlineNodeList := d.onlineNodeList.erase host })
  online : ∀ d : HDCSDomainMap, d.onlineHost host = some
    (if IsSlaveName host then { d with cmap := d.cmap.onlineHost host }
      else if host ∈ d.onlineNodeList then d
      else { d with onlineNodeList := d.onlineNodeList ++ [host] })
  item : ∀ d : HDCSDomainMap, ∃ item d', d.getHostDomainItem host = some (item, d')
    ∧ (IsSlaveName host → item = [] ∧ d' = d)
    ∧ (¬ IsSlaveName host → d'.domainMap[host]? = some item
      ∧ (host ∈ d.domainMap → d' = d))
  restored : IsSlaveName host → slaveOf (withoutSlave host) = host

theorem ConsistentName.classifiedRight (h : ConsistentName host) : ClassifiedRight host := by
  have hends := h.endsInSlave
  refine ⟨fun d => ?_, fun d => ?_, fun d => ?_, fun d => ?_, fun hslave => ?_⟩
  · rw [insertHost, hends]
    simp only [Option.map_some, decide_eq_true_eq]
  · rw [offlineHost, hends]
    simp only [Option.map_some, decide_eq_true_eq]
  · rw [onlineHost, hends]
    simp only [Option.map_some, decide_eq_true_eq]
  · unfold getHostDomainItem
    rw [hends, Option.map_some]
    by_cases hslave : IsSlaveName host
    · rw [decide_eq_true hslave, if_pos rfl]
      exact ⟨_, _, rfl, fun _ => ⟨rfl, rfl⟩, fun hnot => absurd hslave hnot⟩
    · rw [decide_eq_false hslave, if_neg Bool.false_ne_true]
      cases hitem : d.domainMap[host]? with
      | some item => exact ⟨_, _, rfl, fun h => absurd h hslave, fun _ => ⟨hitem, fun _ => rfl⟩⟩
      | none =>
        refine ⟨_, _, rfl, fun h => absurd h hslave, fun _ => ⟨?_, fun hmem => ?_⟩⟩
        · exact Std.TreeMap.getElem?_insert_self
        · obtain ⟨item, hsome⟩ := OrderedMap.mem_iff.mp hmem
          cases hitem.symm.trans hsome
  · obtain ⟨master, rfl⟩ := isSlaveName_iff.mp hslave
    rw [withoutSlave_slaveOf]

/-- **The names that all functions agree on.** -/
theorem classifiedRight_iff : ClassifiedRight host ↔ ConsistentName host := by
  constructor
  · intro h
    -- a master of that name is online
    have hoffline := h.offline ⟨∅, 0, .new firstRule 0, [host]⟩
    rw [offlineHost] at hoffline
    obtain ⟨slave, hends, heq⟩ := Option.map_eq_some_iff.mp hoffline
    have hlen := length_of_endsInSlave hends
    refine ⟨hlen, fun hsuffix => ?_⟩
    by_contra hnot
    rw [endsInSlave_of_length hlen, decide_eq_true hsuffix] at hends
    rw [← Option.some.inj hends, if_pos rfl, if_neg hnot] at heq
    have hlist := congrArg onlineNodeList heq
    exact absurd hlist (by simp)
  · exact ConsistentName.classifiedRight

/-! ## A list of hosts -/

/-- A call at the domain map. Whoever asks for an item may change the map as well. -/
inductive MapCall where
  | change (call : HostCall)
  | getItem (host : Text)

def MapCall.run (d : HDCSDomainMap) : MapCall → Option HDCSDomainMap
  | .change call => call.run d
  | .getItem host => (d.getHostDomainItem host).map Prod.snd

def MapCall.Listed (hosts : List Text) : MapCall → Prop
  | .change call => call.Listed hosts
  | .getItem host => host ∈ hosts

def runMapCalls (calls : List MapCall) (d : HDCSDomainMap) : Option HDCSDomainMap :=
  calls.foldlM MapCall.run d

theorem runMapCalls_cons (call : MapCall) (calls : List MapCall) (d : HDCSDomainMap) :
    runMapCalls (call :: calls) d = (call.run d).bind (runMapCalls calls) :=
  List.foldlM_cons

theorem runMapCalls_append (calls calls' : List MapCall) (d : HDCSDomainMap) :
    runMapCalls (calls ++ calls') d = (runMapCalls calls d).bind (runMapCalls calls') :=
  List.foldlM_append

/-- After the calls the slave is taken offline, and the map is refreshed: its items. -/
def ItemsAfter (rule : CrushRule) (hosts : List Text) (count : UInt8) (calls : List MapCall)
    (slave : Text) (P : List Text → Prop) : Prop :=
  ∃ d₀ d, new rule hosts count = some d₀
    ∧ runMapCalls (calls ++ [.change (.offline slave), .change .refresh]) d₀.generateDomainMap
      = some d
    ∧ ∀ (master : Text) (item : List Text), d.domainMap[master]? = some item → P item

structure Listing (hosts slaves : List Text) (count : UInt8) (d : HDCSDomainMap) : Prop where
  stale : Stale d
  rule : SoundRule d.cmap.rule
  indexed : Indexed d.cmap slaves
  slaves : ∀ host, host ∈ slaves ↔ host ∈ hosts ∧ IsSlaveName host
  masters : ∀ host ∈ d.onlineNodeList, host ∈ hosts ∧ endsInSlave host = some false
  /-- Only masters that somebody asked for have an item without a slave. -/
  asked : ∀ host ∈ d.domainMap, slaveOf host ∉ d.cmap.hostMap → host ∈ hosts ∧ ¬ IsSlaveName host
  count : d.replicationCount = count

theorem refreshDomainMap_replicationCount (d : HDCSDomainMap) :
    d.refreshDomainMap.replicationCount = d.replicationCount := by
  unfold refreshDomainMap
  rw [Std.TreeMap.foldl_eq_foldl_toList, foldl_refreshHost]

section Calls

variable {hosts slaves : List Text} {count : UInt8} {d d' : HDCSDomainMap}

theorem replicationCount_run {call : HostCall} (hd : call.run d = some d') :
    d'.replicationCount = d.replicationCount := by
  cases called_of_run hd with
  | refresh => exact refreshDomainMap_replicationCount d
  | _ => rfl

theorem Listing.change {call : HostCall} (h : Listing hosts slaves count d)
    (hlisted : call.Listed hosts) (hd : call.run d = some d') : Listing hosts slaves count d' := by
  have hstale := stale_run h.stale hd
  have hcount := (replicationCount_run hd).trans h.count
  have hasked : ∀ host ∈ d'.domainMap, slaveOf host ∉ d'.cmap.hostMap →
      host ∈ hosts ∧ ¬ IsSlaveName host := by
    obtain ⟨hsame, hkept⟩ := item_run h.stale hd
    intro host hmem hnot
    rw [hsame] at hnot
    rw [OrderedMap.mem_iff, hkept host hnot, ← OrderedMap.mem_iff] at hmem
    exact h.asked host hmem hnot
  have hrule : ∀ host weight, SoundRule (d.cmap.setWeight host weight).rule := by
    intro host weight
    rw [setWeight_eq]
    exact h.rule
  cases called_of_run hd with
  | slaveGone host =>
    exact ⟨hstale, hrule host 0, h.indexed.setWeight host 0, h.slaves, h.masters, hasked, hcount⟩
  | slaveBack host =>
    exact ⟨hstale, hrule host 0x10000, h.indexed.setWeight host 0x10000, h.slaves, h.masters,
      hasked, hcount⟩
  | masterGone host =>
    exact ⟨hstale, h.rule, h.indexed, h.slaves,
      fun k hk => h.masters k (List.mem_of_mem_erase hk), hasked, hcount⟩
  | masterThere host => exact h
  | masterBack host hends hnot =>
    refine ⟨hstale, h.rule, h.indexed, h.slaves, fun k hk => ?_, hasked, hcount⟩
    rcases List.mem_append.mp hk with hk | hk
    · exact h.masters k hk
    · rw [List.mem_singleton.mp hk]
      exact ⟨hlisted, hends⟩
  | refresh =>
    obtain ⟨m, heq, -⟩ := refreshDomainMap_eq h.stale
    rw [heq] at hstale hasked hcount ⊢
    exact ⟨hstale, h.rule, h.indexed, h.slaves, h.masters, hasked, hcount⟩

theorem Listing.getItem (h : Listing hosts slaves count d) {x : List Text × HDCSDomainMap}
    (hhost : host ∈ hosts) (hmaster : ¬ IsSlaveName host)
    (hx : d.getHostDomainItem host = some x) : Listing hosts slaves count x.2 := by
  have hstale := stale_getHostDomainItem h.stale hx
  rcases getHostDomainItem_cases hx with heq | ⟨-, heq⟩
  · rw [heq]
    exact h
  · rw [heq] at hstale ⊢
    refine ⟨hstale, h.rule, h.indexed, h.slaves, h.masters, fun other hmem hnot => ?_, h.count⟩
    rcases Std.TreeMap.mem_insert.mp hmem with heq | hmem
    · obtain rfl := Std.LawfulEqCmp.eq_of_compare heq
      exact ⟨hhost, hmaster⟩
    · exact h.asked other hmem hnot

theorem Listing.run {call : MapCall} (hnames : ∀ host ∈ hosts, ConsistentName host)
    (h : Listing hosts slaves count d) (hlisted : call.Listed hosts) :
    ∃ d', call.run d = some d' ∧ Listing hosts slaves count d' := by
  cases call with
  | change call =>
    have hnamed : call.Named := by
      cases call with
      | offline host | online host => exact (hnames host hlisted).1
      | refresh => trivial
    obtain ⟨d', hd'⟩ := hnamed.returns d
    exact ⟨d', hd', h.change hlisted hd'⟩
  | getItem host =>
    obtain ⟨item, d', hitem, hslave, -⟩ := (hnames host hlisted).classifiedRight.item d
    refine ⟨d', by rw [MapCall.run, hitem]; rfl, ?_⟩
    by_cases hname : IsSlaveName host
    · rw [(hslave hname).2]
      exact h
    · exact h.getItem hlisted hname hitem

theorem Listing.runCalls {calls : List MapCall} (hnames : ∀ host ∈ hosts, ConsistentName host)
    (h : Listing hosts slaves count d) (hlisted : ∀ call ∈ calls, call.Listed hosts) :
    ∃ d', runMapCalls calls d = some d' ∧ Listing hosts slaves count d' := by
  induction calls generalizing d with
  | nil => exact ⟨d, rfl, h⟩
  | cons call calls ih =>
    obtain ⟨d₁, hd₁, h₁⟩ := h.run hnames (hlisted call List.mem_cons_self)
    obtain ⟨d', hd', h'⟩ := ih h₁ fun c hc => hlisted c (List.mem_cons_of_mem _ hc)
    refine ⟨d', ?_, h'⟩
    rw [runMapCalls_cons, hd₁]
    exact hd'

theorem listing_new (hnames : ∀ host ∈ hosts, ConsistentName host) {rule : CrushRule}
    (hrule : SoundRule rule) (count : UInt8) :
    ∃ d, new rule hosts count = some d
      ∧ ∃ slaves, Listing hosts slaves count d.generateDomainMap := by
  obtain ⟨d, hd, hcmap, hcount, honline, hmap⟩ := foldlM_insertHost
    (fun host hhost => consistentName_iff.mp (hnames host hhost))
    ⟨∅, count, .new rule (count - 1), []⟩
  have hempty : d.cmap.hostMap = ∅ := by rw [hcmap]; rfl
  have hmap : ∀ master, master ∈ d.domainMap ↔ slaveOf master ∈ hosts := fun master =>
    (hmap master).trans (or_iff_left Std.TreeMap.not_mem_emptyc)
  have hbuilt : Listing hosts (slavesOf d.domainMap) count
      { d with cmap := d.cmap.build (slavesOf d.domainMap) } := by
    refine ⟨stale_build hempty (by rw [hcmap, hcount]; rfl), ?_, ?_, fun host => ?_,
      fun host hhost => ?_, fun host hmem hnot => ?_, hcount⟩
    · obtain ⟨hsame, -⟩ := foldl_addHost_eq (slavesOf d.domainMap) d.cmap
      have hsame : (d.cmap.build (slavesOf d.domainMap)).rule = rule :=
        hsame.trans (by rw [hcmap]; rfl)
      exact hsame.symm ▸ hrule
    · rw [hcmap]
      exact indexed_build rule (count - 1) Std.TreeMap.nodup_keys
    · rw [mem_slavesOf, isSlaveName_iff]
      constructor
      · intro ⟨master, hmaster, heq⟩
        exact ⟨heq ▸ (hmap master).mp hmaster, master, heq.symm⟩
      · intro ⟨hhost, master, heq⟩
        exact ⟨master, (hmap master).mpr (heq ▸ hhost), heq.symm⟩
    · rw [honline] at hhost
      obtain ⟨hhost, hends⟩ := List.mem_filter.mp hhost
      exact ⟨hhost, of_decide_eq_true hends⟩
    · exact absurd ((mem_build hempty _).mpr ⟨host, hmem, rfl⟩) hnot
  have hcall : HostCall.refresh.Listed hosts := trivial
  exact ⟨d, hd, _, hbuilt.change hcall rfl⟩

theorem Listing.mem_item (h : Listing hosts slaves count d) {master : Text} {item : List Text}
    (hitem : d.refreshDomainMap.domainMap[master]? = some item) {name : Text}
    (hname : name ∈ item) :
    name ∈ hosts ∧ (endsInSlave name = some false ∨ Weighs d.cmap name)
      ∨ name = [] ∧ count ≠ 0 ∧ master ∈ hosts ∧ ¬ IsSlaveName master
        ∧ slaveOf master ∉ hosts := by
  obtain ⟨m, heq, hm⟩ := refreshDomainMap_eq h.stale
  rw [heq] at hitem
  have hitem := (hm master).symm.trans hitem
  by_cases hlisted : slaveOf master ∈ d.cmap.hostMap
  · refine Or.inl ?_
    rw [if_pos hlisted] at hitem
    rw [← Option.some.inj hitem] at hname
    unfold itemOf refreshItem at hname
    split at hname
    · rename_i honline
      rcases List.mem_cons.mp hname with rfl | hname
      · obtain ⟨hmaster, hends⟩ := h.masters _ honline
        exact ⟨hmaster, Or.inl hends⟩
      · obtain ⟨hslave, hweighs, -⟩ := (domainOf_sound h.indexed h.rule _).2 name hname
        exact ⟨((h.slaves name).mp hslave).1, Or.inr hweighs⟩
    · exact absurd hname List.not_mem_nil
  · refine Or.inr ?_
    rw [if_neg hlisted] at hitem
    obtain ⟨hmaster, hnot⟩ := h.asked master (OrderedMap.mem_iff.mpr ⟨item, hitem⟩) hlisted
    have hblank := h.stale.other master item hlisted hitem
    rw [h.count] at hblank
    rw [hblank, List.mem_replicate] at hname
    rw [h.indexed.mem_iff, h.slaves] at hlisted
    refine ⟨hname.2, fun hzero => hname.1 (by rw [hzero]; rfl), hmaster, hnot, fun hslave => ?_⟩
    exact hlisted ⟨hslave, isSlaveName_iff.mpr ⟨master, rfl⟩⟩

theorem Listing.not_weighs (h : Listing hosts slaves count d)
    (hslave : endsInSlave host = some true) (hd : d.offlineHost host = some d') :
    ¬ Weighs d'.cmap host := by
  unfold offlineHost at hd
  rw [hslave] at hd
  cases hd
  intro hweighs
  have hzero := (weighs_setWeight h.indexed 0).mp hweighs
  rw [if_pos rfl] at hzero
  exact hzero.2 rfl

theorem stale_runCalls {calls : List HostCall} (h : Stale d) (hd : runCalls calls d = some d') :
    Stale d' :=
  foldlM_invariant (fun _ _ _ hs hrun => stale_run hs hrun) h hd

theorem stale_mapCalls {calls : List MapCall} (h : Stale d)
    (hd : runMapCalls calls d = some d') : Stale d' := by
  refine foldlM_invariant (fun d call d' hs hrun => ?_) h hd
  cases call with
  | change call => exact stale_run hs hrun
  | getItem host =>
    obtain ⟨x, hx, rfl⟩ := Option.map_eq_some_iff.mp hrun
    exact stale_getHostDomainItem hs hx

theorem itemsAfter {rule : CrushRule} (hrule : SoundRule rule)
    (hnames : ∀ host ∈ hosts, ConsistentName host) (count : UInt8) {calls : List MapCall}
    (hlisted : ∀ call ∈ calls, call.Listed hosts) {slave : Text} (hslave : slave ∈ hosts)
    (hname : IsSlaveName slave) :
    ItemsAfter rule hosts count calls slave fun item => ∀ name ∈ item,
      name ∈ hosts ∧ name ≠ slave
        ∨ name = [] ∧ count ≠ 0 ∧ ∃ master ∈ hosts, ¬ IsSlaveName master
          ∧ slaveOf master ∉ hosts := by
  obtain ⟨d₀, hd₀, slaves, hlist⟩ := listing_new hnames hrule count
  obtain ⟨d₁, hd₁, h₁⟩ := hlist.runCalls hnames hlisted
  have hcall : (MapCall.change (.offline slave)).Listed hosts := hslave
  obtain ⟨d₂, hd₂, h₂⟩ := h₁.run hnames hcall
  have hends : endsInSlave slave = some true := by
    rw [(hnames slave hslave).endsInSlave, decide_eq_true hname]
  refine ⟨d₀, d₂.refreshDomainMap, hd₀, ?_, fun master item hitem name hmem => ?_⟩
  · rw [runMapCalls_append, hd₁, Option.bind_some, runMapCalls_cons, hd₂]
    rfl
  · rcases h₂.mem_item hitem hmem with ⟨hhost, hwhy⟩ | ⟨hblank, hcount, hmaster, hnot, hno⟩
    · refine Or.inl ⟨hhost, fun heq => ?_⟩
      subst heq
      rcases hwhy with hmaster | hweighs
      · cases hends.symm.trans hmaster
      · exact h₁.not_weighs hends hd₂ hweighs
    · exact Or.inr ⟨hblank, hcount, master, hmaster, hnot, hno⟩

theorem blankItem_after {rule : CrushRule} (hnames : ∀ host ∈ hosts, ConsistentName host)
    (hrule : SoundRule rule) {slave master : Text} (hslave : slave ∈ hosts)
    (hmaster : master ∈ hosts) (hnot : ¬ IsSlaveName master) (hno : slaveOf master ∉ hosts)
    {P : List Text → Prop} (h : ItemsAfter rule hosts count [.getItem master] slave P) :
    P (List.replicate count.toNat []) := by
  obtain ⟨d₀, hd₀, slaves, hlist⟩ := listing_new hnames hrule count
  obtain ⟨d₀', d, hd₀', hd, hitems⟩ := h
  obtain rfl := Option.some.inj (hd₀.symm.trans hd₀')
  obtain ⟨item, d₁, hitem, -, hstored⟩ :=
    (hnames master hmaster).classifiedRight.item d₀.generateDomainMap
  have h₁ := hlist.getItem hmaster hnot hitem
  have hcall : (MapCall.change (.offline slave)).Listed hosts := hslave
  obtain ⟨d₂, hd₂, h₂⟩ := h₁.run hnames hcall
  have hrefresh : HostCall.refresh.run d₂ = some d₂.refreshDomainMap := rfl
  obtain ⟨hsame₂, hkept₂⟩ := item_run h₁.stale (show (HostCall.offline slave).run d₁ = _ from hd₂)
  obtain ⟨-, hkept⟩ := item_run h₂.stale hrefresh
  have hunlisted : slaveOf master ∉ d₁.cmap.hostMap := by
    rw [h₁.indexed.mem_iff, h₁.slaves]
    exact fun hmem => hno hmem.1
  have hfinal : d = d₂.refreshDomainMap := by
    have hget : (MapCall.getItem master).run d₀.generateDomainMap = some d₁ := by
      rw [MapCall.run, hitem]
      rfl
    rw [List.singleton_append, runMapCalls_cons, hget, Option.bind_some, runMapCalls_cons, hd₂]
      at hd
    exact (Option.some.inj hd).symm
  have hblank := h₁.stale.other master item hunlisted (hstored hnot).1
  rw [h₁.count] at hblank
  refine hitems master _ ?_
  rw [hfinal, hkept master (hsame₂ ▸ hunlisted), hkept₂ master hunlisted, (hstored hnot).1, hblank]

end Calls

/--
**Host names are classified right** by all functions if and only if they are consistent; those that
the map makes itself always are. For a list of consistent names, a slave that is taken offline is
in no item after the refresh. The items hold listed hosts only, whatever was called before, if and
only if every listed master has its slave in the list, or the items that are made have no names.
-/
theorem hostNames_classified (rule : CrushRule) (hrule : SoundRule rule) :
    (∀ host, ClassifiedRight host ↔ ConsistentName host)
      ∧ (∀ hosts count d₀ (calls : List MapCall) d, new rule hosts count = some d₀ →
        runMapCalls calls d₀.generateDomainMap = some d → ∀ host ∈ d.cmap.hostMap,
          IsSlaveName host ∧ endsInSlave host = some true ∧ slaveOf (withoutSlave host) = host)
      ∧ ∀ hosts, (∀ host ∈ hosts, ConsistentName host) → ∀ (count : UInt8), ∀ slave ∈ hosts,
        IsSlaveName slave →
          (∀ calls : List MapCall, (∀ call ∈ calls, call.Listed hosts) →
            ItemsAfter rule hosts count calls slave fun item => slave ∉ item)
          ∧ ((∀ calls : List MapCall, (∀ call ∈ calls, call.Listed hosts) →
              ItemsAfter rule hosts count calls slave fun item => ∀ name ∈ item, name ∈ hosts)
            ↔ count = 0 ∨ ∀ master ∈ hosts, ¬ IsSlaveName master → slaveOf master ∈ hosts) := by
  refine ⟨fun _ => classifiedRight_iff, fun hosts count d₀ calls d hd₀ hd host hhost => ?_,
    fun hosts hnames count slave hslave hname => ⟨fun calls hlisted => ?_, fun h => ?_,
      fun hcond calls hlisted => ?_⟩⟩
  · have hstale := stale_mapCalls (fresh_new hd₀).toStale hd
    obtain ⟨master, rfl⟩ := hstale.slaves host hhost
    refine ⟨isSlaveName_iff.mpr ⟨master, rfl⟩, endsInSlave_slaveOf master, ?_⟩
    rw [withoutSlave_slaveOf]
  · obtain ⟨d₀, d, hd₀, hd, hitems⟩ := itemsAfter hrule hnames count hlisted hslave hname
    refine ⟨d₀, d, hd₀, hd, fun master item hitem hmem => ?_⟩
    rcases hitems master item hitem slave hmem with ⟨-, hne⟩ | ⟨hblank, -⟩
    · exact hne rfl
    · exact absurd ((hblank ▸ hnames slave hslave).1 : 5 ≤ ([] : Text).length) (by decide)
  · by_contra hcond
    obtain ⟨hcount, hcond⟩ := not_or.mp hcond
    push Not at hcond
    obtain ⟨master, hmaster, hnot, hno⟩ := hcond
    have hcall : ∀ call ∈ [MapCall.getItem master], call.Listed hosts := by
      intro call hcall
      rw [List.mem_singleton.mp hcall]
      exact hmaster
    have hblank := blankItem_after hnames hrule hslave hmaster hnot hno (h _ hcall)
    have hpos : count.toNat ≠ 0 := fun hzero => hcount (UInt8.toNat_inj.mp hzero)
    have hlen := (hnames [] (hblank [] (List.mem_replicate.mpr ⟨hpos, rfl⟩))).1
    cases hlen
  · obtain ⟨d₀, d, hd₀, hd, hitems⟩ := itemsAfter hrule hnames count hlisted hslave hname
    refine ⟨d₀, d, hd₀, hd, fun master item hitem name hmem => ?_⟩
    rcases hitems master item hitem name hmem with
      ⟨hhost, -⟩ | ⟨-, hcount, other, hother, hnot, hno⟩
    · exact hhost
    · rcases hcond with hzero | hcovered
      · exact absurd hzero hcount
      · exact absurd (hcovered other hother hnot) hno

/-- A slave is listed twice, and another has no master. -/
def unevenHosts : List Text :=
  [ascii "node1", ascii "node1_slave", ascii "node1_slave", ascii "node2_slave"]

/-- The slave that has no master goes. -/
theorem hostNames_unevenHosts :
    SoundRule firstRule ∧ ItemsAfter firstRule unevenHosts 2 [.getItem (ascii "node1")]
        (ascii "node2_slave") (fun item => ascii "node2_slave" ∉ item)
      ∧ ItemsAfter firstRule unevenHosts 2 [.getItem (ascii "node1")] (ascii "node2_slave")
        (fun item => ∀ name ∈ item, name ∈ unevenHosts) := by
  have hcall : ∀ call ∈ [MapCall.getItem (ascii "node1")], call.Listed unevenHosts := by
    intro call hcall
    rw [List.mem_singleton.mp hcall]
    exact show ascii "node1" ∈ unevenHosts by decide
  obtain ⟨hgone, hlisted⟩ := (hostNames_classified firstRule soundRule_firstRule).2.2 unevenHosts
    (by decide) 2 (ascii "node2_slave") (by decide) (by decide)
  exact ⟨soundRule_firstRule, hgone _ hcall, hlisted.mpr (Or.inr (by decide)) _ hcall⟩

/-- One name ends in `slave` without the underscore. -/
def strayHosts : List Text :=
  [ascii "nodeA", ascii "nodeAxslave", ascii "nodeB", ascii "nodeB_slave"]

/--
A short name makes the test throw. The stray name is taken for a slave, by a name that nobody has;
after `nodeB_slave` was taken offline it is that name that stands in the item of `nodeB`. In
a list of consistent names, the master that has no slave gets an item of empty names when it asks.
-/
theorem hostNames_misclassified :
    (∀ d : HDCSDomainMap, d.offlineHost (ascii "a") = none)
      ∧ endsInSlave (ascii "nodeAxslave") = some true ∧ ¬ IsSlaveName (ascii "nodeAxslave")
      ∧ slaveOf (withoutSlave (ascii "nodeAxslave")) = ascii "nodeA_slave"
      ∧ ascii "nodeA_slave" ∉ strayHosts
      ∧ ((new firstRule strayHosts 2).bind fun d =>
          (runCalls [.offline (ascii "nodeB_slave"), .refresh] d.generateDomainMap).bind fun d =>
            d.domainMap[ascii "nodeB"]?) = some [ascii "nodeB", ascii "nodeA_slave"]
      ∧ ((new firstRule strayHosts 2).bind fun d =>
          (runCalls [.offline (ascii "nodeAxslave"), .refresh] d.generateDomainMap).bind fun d =>
            d.domainMap[ascii "nodeB"]?) = some [ascii "nodeB", ascii "nodeA_slave"]
      ∧ ((new firstRule [ascii "node1", ascii "node2", ascii "node2_slave"] 2).bind
          fun d => (runMapCalls [.getItem (ascii "node1"), .change (.offline (ascii "node2_slave")),
            .change .refresh] d.generateDomainMap).bind fun d =>
              d.domainMap[ascii "node1"]?) = some [[], []] := by
  refine ⟨fun d => rfl, by decide, by decide, by decide, by decide, by decide +kernel,
    by decide +kernel, by decide +kernel⟩

variable {rule : CrushRule} {hosts : List Text} {count : UInt8} {calls : List HostCall}
  {d₀ d : HDCSDomainMap}

theorem replicationCount_runCalls (hd₀ : new rule hosts count = some d₀)
    (hd : runCalls calls d₀.generateDomainMap = some d) : d.replicationCount = count := by
  have hnew : d₀.replicationCount = count := by
    refine foldlM_invariant (I := (·.replicationCount = count)) ?_ rfl hd₀
    intro d host d' h hinsert
    obtain ⟨slave, -, rfl⟩ := Option.map_eq_some_iff.mp hinsert
    split <;> exact h
  have hgen : d₀.generateDomainMap.replicationCount = count :=
    (refreshDomainMap_replicationCount _).trans hnew
  exact foldlM_invariant (I := (·.replicationCount = count))
    (fun d call d' h hrun => (replicationCount_run hrun).trans h) hgen hd

end HDCS.Proof
