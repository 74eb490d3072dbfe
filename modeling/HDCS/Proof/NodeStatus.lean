import HDCS.Proof.Domains
import HDCS.Proof.HAFraming

/-!
# What the status table says, and what the domain map says

The manager keeps the status of a node twice: in `ha_hdcs_node_stat`, and in the domain map, by who
is online there. `set_stat_map` changes both. The handler of core-stat messages changes the domain
map only for a node that is down: where a node that was taken offline says that it is up, the table
believes it and the domain map is not told (`agree_takeStat`).
-/

namespace HDCS.Proof

open Lib Lib.Machine

variable {c₀ : CrushMapGenerator} {slaves : List Text} {c c' : CoreStatServer} {host : Text}

/-- Who is up is online, and who is down is not. -/
def Agree (c : CoreStatServer) : Prop :=
  ∀ host stat, c.nodeStat[host]? = some stat →
    (stat = .up → IsOnline c.domainMap host) ∧ (stat = .down → ¬ IsOnline c.domainMap host)

structure Managed (c₀ : CrushMapGenerator) (slaves : List Text) (c : CoreStatServer) : Prop where
  known : Known c₀ slaves c.domainMap
  listed : ∀ host ∈ c.nodeStat, endsInSlave host = some true → host ∈ slaves

theorem agree_insert {d : HDCSDomainMap} {stat : NodeStat} (h : Agree c)
    (hothers : ∀ other, other ≠ host → (IsOnline d other ↔ IsOnline c.domainMap other)) :
    Agree ⟨c.nodeStat.insert host stat, d⟩
      ↔ (stat = .up → IsOnline d host) ∧ (stat = .down → ¬ IsOnline d host) := by
  constructor
  · intro h'
    exact h' host stat (by rw [OrderedMap.getElem?_insert, if_pos rfl])
  · intro hhost other stat' hstat
    have hstat : (c.nodeStat.insert host stat)[other]? = some stat' := hstat
    rw [OrderedMap.getElem?_insert] at hstat
    by_cases heq : host = other
    · subst heq
      rw [if_pos rfl] at hstat
      cases hstat
      exact hhost
    · rw [if_neg heq] at hstat
      rw [hothers other (Ne.symm heq)]
      exact h other stat' hstat

theorem Managed.insert {d : HDCSDomainMap} {stat : NodeStat} (h : Managed c₀ slaves c)
    (hd : Known c₀ slaves d) (hhost : host ∈ c.nodeStat) :
    Managed c₀ slaves ⟨c.nodeStat.insert host stat, d⟩ := by
  refine ⟨hd, fun other hother => ?_⟩
  rcases OrderedMap.mem_insert.mp hother with rfl | hother
  · exact h.listed _ hhost
  · exact h.listed other hother

theorem agree_offline {d : HDCSDomainMap} (h : Managed c₀ slaves c) (hagree : Agree c)
    (hd : c.domainMap.offlineHost host = some d) :
    Agree ⟨c.nodeStat.insert host .down, d.refreshDomainMap⟩ := by
  have hstale := (h.known.offlineHost hd).stale
  have honline : ∀ other, IsOnline d.refreshDomainMap other
      ↔ IsOnline c.domainMap other ∧ other ≠ host := fun other =>
    (isOnline_refresh hstale).trans (isOnline_offlineHost h.known hd)
  refine (agree_insert hagree fun other hne => (honline other).trans (and_iff_left hne)).mpr
    ⟨fun hup => absurd hup (by decide), fun _ hon => ?_⟩
  exact ((honline host).mp hon).2 rfl

theorem agree_online {d : HDCSDomainMap} (h : Managed c₀ slaves c) (hagree : Agree c)
    (hhost : host ∈ c.nodeStat) (hd : c.domainMap.onlineHost host = some d) :
    Agree ⟨c.nodeStat.insert host .up, d.refreshDomainMap⟩ := by
  have hstale := (h.known.onlineHost hd).stale
  have honline : ∀ other, IsOnline d.refreshDomainMap other
      ↔ IsOnline c.domainMap other ∨ other = host := by
    intro other
    rw [isOnline_refresh hstale, isOnline_onlineHost h.known hd, and_iff_left (h.listed host hhost)]
  refine (agree_insert hagree fun other hne => (honline other).trans (or_iff_left hne)).mpr
    ⟨fun _ => (honline host).mpr (.inr rfl), fun hdown => absurd hdown (by decide)⟩

/-- **`set_stat_map`** tells both. -/
theorem agree_setStatMap {stat : NodeStat} (h : Managed c₀ slaves c) (hagree : Agree c)
    (hc : c.setStatMap host stat = some c') : Managed c₀ slaves c' ∧ Agree c' := by
  unfold CoreStatServer.setStatMap at hc
  split at hc
  · rename_i hhost
    dsimp only at hc
    split at hc
    · obtain ⟨d, hd, rfl⟩ := Option.map_eq_some_iff.mp hc
      exact ⟨h.insert (h.known.offlineHost hd).refresh hhost, agree_offline h hagree hd⟩
    · obtain ⟨d, hd, rfl⟩ := Option.map_eq_some_iff.mp hc
      exact ⟨h.insert (h.known.onlineHost hd).refresh hhost, agree_online h hagree hhost hd⟩
    -- neither up nor down
    · rename_i hdown hup
      cases hc
      exact ⟨h.insert h.known hhost, (agree_insert hagree fun _ _ => Iff.rfl).mpr
        ⟨fun heq => absurd heq hup, fun heq => absurd heq hdown⟩⟩
  · cases hc

/-- **A core-stat message** tells both of a node that is down, and the table of one that is up. -/
theorem agree_takeStat {stat : NodeStat} (h : Managed c₀ slaves c) (hagree : Agree c)
    (hc : c.takeStat host stat = some c') :
    Managed c₀ slaves c' ∧ (Agree c' ↔ (stat = .up → IsOnline c.domainMap host)) := by
  unfold CoreStatServer.takeStat at hc
  cases hstat : c.nodeStat[host]? with
  | none =>
    rw [hstat] at hc
    cases hc
  | some old =>
    rw [hstat] at hc
    have hhost : host ∈ c.nodeStat := OrderedMap.mem_iff.mpr ⟨old, hstat⟩
    dsimp only at hc
    by_cases hold : old = stat
    · rw [if_pos hold] at hc
      cases hc
      exact ⟨h, iff_of_true hagree (hagree host stat (hold ▸ hstat)).1⟩
    · rw [if_neg hold] at hc
      by_cases hdown : stat = .down
      · rw [if_pos hdown] at hc
        obtain ⟨d, hd, rfl⟩ := Option.map_eq_some_iff.mp hc
        subst hdown
        exact ⟨h.insert (h.known.offlineHost hd).refresh hhost,
          iff_of_true (agree_offline h hagree hd) fun hup => absurd hup (by decide)⟩
      · rw [if_neg hdown] at hc
        cases hc
        refine ⟨h.insert h.known hhost, (agree_insert hagree fun _ _ => Iff.rfl).trans ?_⟩
        exact and_iff_left fun heq => absurd heq hdown

theorem agree_getHostDomainItem {x : List Text × CoreStatServer} (h : Managed c₀ slaves c)
    (hx : c.getHostDomainItem host = some x) :
    Managed c₀ slaves x.2 ∧ (Agree x.2 ↔ Agree c) := by
  obtain ⟨y, hy, rfl⟩ := Option.map_eq_some_iff.mp hx
  have hstale := stale_getHostDomainItem h.known.stale hy
  rcases getHostDomainItem_cases hy with heq | ⟨-, heq⟩
  · dsimp only
    rw [heq]
    exact ⟨h, Iff.rfl⟩
  · dsimp only
    rw [heq] at hstale ⊢
    have hknown := h.known
    exact ⟨⟨⟨hstale, hknown.cmap, hknown.indexed, hknown.slaves, hknown.nodup, hknown.masters⟩,
      h.listed⟩, Iff.rfl⟩

/-! ## The manager -/

/-- What comes to the manager. -/
inductive HAEvent where
  /-- A message, whatever it says. -/
  | request (session : Option Party) (msg : Content)
  | heartbeatFailed (node : Text)
  | timeout
  | unregister (addr : Text)

/-- One event; without a result the process has ended. -/
def haEvent (cfg : HAConfig) (m : HAManager) : HAEvent → Option HAManager
  | .request session msg => (m.requestHandler cfg session msg).map Prod.fst
  | .heartbeatFailed node => m.heartbeatFailed node
  | .timeout => (m.timeout cfg).map Prod.fst
  | .unregister addr => some (m.unregisterHdcsNode addr)

def IsCoreStat (msg : Content) : Prop :=
  ∃ code rest, msg.bytes = code :: rest ∧ HAMsgType.ofCode code = .coreStat

/-- A node that says it is up, in a core-stat message, has not been taken offline. -/
def InTouch (m : HAManager) : HAEvent → Prop
  | .request _ msg => IsCoreStat msg → getNodeStat msg = .up →
      IsOnline m.coreStat.domainMap (getNodeName msg)
  | _ => True

theorem isCoreStat_iff {msg : Content} :
    IsCoreStat msg ↔ msg.bytes.head?.map HAMsgType.ofCode = some .coreStat := by
  unfold IsCoreStat
  cases msg.bytes <;> simp

theorem weighs_iff : Weighs c₀ host
    ↔ (c₀.hostMap[host]?.bind fun i => c₀.weights[i]?).any (fun w => decide (w ≠ 0)) = true := by
  unfold Weighs
  cases c₀.hostMap[host]? with
  | none => simp
  | some i => cases hw : c₀.weights[i]? <;> simp [hw]

instance (d : HDCSDomainMap) (host : Text) : Decidable (IsOnline d host) :=
  haveI : Decidable (Weighs d.cmap host) := decidable_of_iff' _ weighs_iff
  inferInstanceAs (Decidable
    (if endsInSlave host = some true then Weighs d.cmap host else host ∈ d.onlineNodeList))

instance : ∀ (m : HAManager) (e : HAEvent), Decidable (InTouch m e)
  | m, .request _ msg =>
    haveI : Decidable (IsCoreStat msg) := decidable_of_iff' _ isCoreStat_iff
    inferInstanceAs (Decidable (IsCoreStat msg → getNodeStat msg = .up →
      IsOnline m.coreStat.domainMap (getNodeName msg)))
  | _, .heartbeatFailed _ | _, .timeout | _, .unregister _ => inferInstanceAs (Decidable True)

section Manager

variable {cfg : HAConfig} {m m' : HAManager}

def Agreed (c₀ : CrushMapGenerator) (slaves : List Text) (m : HAManager) : Prop :=
  Managed c₀ slaves m.coreStat ∧ Agree m.coreStat

theorem Agreed.setStatMap {stat : NodeStat} (h : Agreed c₀ slaves m)
    (hm : m.setStatMap host stat = some m') : Agreed c₀ slaves m' := by
  obtain ⟨c, hc, rfl⟩ := Option.map_eq_some_iff.mp hm
  exact agree_setStatMap h.1 h.2 hc

theorem Agreed.distribute {x : HAManager × List Outgoing} (h : Agreed c₀ slaves m)
    (hx : m.distributeDomainMap = some x) : Agreed c₀ slaves x.1 := by
  refine foldlM_invariant (I := fun x : HAManager × List Outgoing =>
    Agreed c₀ slaves x.1) ?_ h hx
  intro x node y h hround
  obtain ⟨z, hz, rfl⟩ := Option.map_eq_some_iff.mp hround
  obtain ⟨hmanaged, hagree⟩ := agree_getHostDomainItem h.1 hz
  exact ⟨hmanaged, hagree.mpr h.2⟩

theorem Agreed.connect {node : Text} (h : Agreed c₀ slaves m)
    (hm : m.connect cfg node = some m') : Agreed c₀ slaves m' := by
  obtain ⟨m₁, hm₁, hm⟩ := Option.bind_eq_some_iff.mp hm
  have h₁ := h.setStatMap hm₁
  unfold HAManager.registerHdcsNode at hm
  split at hm
  · cases hm
    exact h₁
  · obtain ⟨addr, -, rfl⟩ := Option.map_eq_some_iff.mp hm
    exact h₁

theorem Agreed.beforeTimeout (h : Agreed c₀ slaves m) (hm : m.beforeTimeout cfg = some m') :
    Agreed c₀ slaves m' := by
  unfold HAManager.beforeTimeout at hm
  split at hm
  · refine foldlM_invariant (I := Agreed c₀ slaves) ?_ h hm
    intro m host m' h hround
    split at hround
    · cases hround
      exact h
    · exact h.setStatMap hround
  · cases hm
    exact h
  · cases hm

theorem Agreed.coreStat {session : Option Party} {msg : Content}
    {x : CoreStatServer × List Outgoing} (h : Agreed c₀ slaves m)
    (hx : m.coreStat.requestHandler session msg = some x) :
    Managed c₀ slaves x.1
      ∧ (Agree x.1
        ↔ (getNodeStat msg = .up → IsOnline m.coreStat.domainMap (getNodeName msg))) := by
  unfold CoreStatServer.requestHandler at hx
  split at hx
  · cases hx
  · obtain ⟨c, hc, hx⟩ := Option.bind_eq_some_iff.mp hx
    obtain ⟨y, hy, rfl⟩ := Option.map_eq_some_iff.mp hx
    obtain ⟨hmanaged, hagree⟩ := agree_takeStat h.1 h.2 hc
    obtain ⟨hmanaged', hagree'⟩ := agree_getHostDomainItem hmanaged hy
    exact ⟨hmanaged', hagree'.trans hagree⟩

/-- **One event.** -/
theorem agree_event {e : HAEvent} (h : Agreed c₀ slaves m) (he : haEvent cfg m e = some m') :
    Managed c₀ slaves m'.coreStat ∧ (Agree m'.coreStat ↔ InTouch m e) := by
  have hkeep : Agreed c₀ slaves m' → InTouch m e →
      Managed c₀ slaves m'.coreStat ∧ (Agree m'.coreStat ↔ InTouch m e) :=
    fun h' htouch => ⟨h'.1, iff_of_true h'.2 htouch⟩
  cases e with
  | request session msg =>
    obtain ⟨x, hx, rfl⟩ := Option.map_eq_some_iff.mp he
    unfold HAManager.requestHandler at hx
    split at hx
    · cases hx
    · rename_i code rest hbytes
      -- only a core-stat message has to be in touch
      have htouch : HAMsgType.ofCode code ≠ .coreStat → InTouch m (.request session msg) := by
        intro hne ⟨code', rest', hbytes', hcode⟩
        rw [hbytes] at hbytes'
        exact absurd ((List.cons.inj hbytes').1 ▸ hcode) hne
      split at hx
      · rename_i hcode
        have hsame : x.1 = m := by
          split at hx
          · rw [← Option.some.inj hx]
          · cases hx
          · rw [← Option.some.inj hx]
        exact hkeep (hsame ▸ h) (htouch (by rw [hcode]; simp))
      · rename_i hcode
        cases hx
        exact ⟨h.1, iff_of_true h.2 (htouch (by rw [hcode]; simp))⟩
      · rename_i hcode
        obtain ⟨out, -, rfl⟩ := Option.map_eq_some_iff.mp hx
        exact hkeep h (htouch (by rw [hcode]; simp))
      · rename_i hcode
        obtain ⟨y, hy, rfl⟩ := Option.map_eq_some_iff.mp hx
        obtain ⟨hmanaged, hagree⟩ := h.coreStat hy
        refine ⟨hmanaged, hagree.trans ?_⟩
        have hstat : IsCoreStat msg := ⟨code, rest, hbytes, hcode⟩
        exact ⟨fun h _ => h, fun h => h hstat⟩
      · rename_i hcode
        obtain ⟨m₁, hm₁, hx⟩ := Option.bind_eq_some_iff.mp hx
        exact hkeep ((h.connect hm₁).distribute hx) (htouch (by rw [hcode]; simp))
      · rename_i hcode
        cases hx
        exact ⟨h.1, iff_of_true h.2 (htouch (by rw [hcode]; simp))⟩
  | heartbeatFailed node =>
    obtain ⟨m₁, hm₁, rfl⟩ := Option.map_eq_some_iff.mp he
    have h' : Agreed c₀ slaves { m with connMap := m.connMap.erase node } := h
    have h₁ := h'.setStatMap hm₁
    exact hkeep ⟨h₁.1, h₁.2⟩ trivial
  | timeout =>
    obtain ⟨x, hx, rfl⟩ := Option.map_eq_some_iff.mp he
    obtain ⟨m₁, hm₁, hx⟩ := Option.bind_eq_some_iff.mp hx
    obtain ⟨y, hy, rfl⟩ := Option.map_eq_some_iff.mp hx
    have h₁ := (h.beforeTimeout hm₁).distribute hy
    exact hkeep ⟨h₁.1, h₁.2⟩ trivial
  | unregister addr =>
    cases he
    exact ⟨h.1, iff_of_true h.2 trivial⟩

theorem agreed_new (hhosts : HostList cfg.hostList) (hm : HAManager.new cfg = some m) :
    ∃ c₀ slaves, Agreed c₀ slaves m := by
  unfold HAManager.new at hm
  split at hm
  · obtain ⟨d, hd, rfl⟩ := Option.map_eq_some_iff.mp hm
    obtain ⟨d', hd', c₀, slaves, -, -, hkept, -, hslaves, hup⟩ :=
      domainMap_new hhosts cfg.rule cfg.replicationCount
    obtain rfl : d = d' := Option.some.inj (hd.symm.trans hd')
    have hstat : ∀ host stat, (cfg.hostList.foldl (fun m host => m.insert host NodeStat.up)
        (∅ : Std.TreeMap Text NodeStat))[host]? = some stat → host ∈ cfg.hostList ∧ stat = .up := by
      intro host stat hhost
      have hloop := OrderedMap.getElem?_foldl_insert id (fun _ => NodeStat.up) host cfg.hostList ∅
      rw [List.map_id] at hloop
      have hhost := hloop.symm.trans hhost
      split at hhost
      · exact ⟨by assumption, (Option.some.inj hhost).symm⟩
      · cases hhost
    refine ⟨c₀, slaves, ⟨hkept.toKnown, fun host hmem hslave => ?_⟩, fun host stat hhost => ?_⟩
    · obtain ⟨stat, hhost⟩ := OrderedMap.mem_iff.mp hmem
      exact (hslaves host).mpr ⟨(hstat host stat hhost).1, hslave⟩
    · obtain ⟨hin, rfl⟩ := hstat host stat hhost
      exact ⟨fun _ => (hup host).mpr hin, fun hdown => absurd hdown (by decide)⟩
  · cases hm

end Manager

/--
**The status table and the domain map agree** as long as no node that has been taken offline says,
in a core-stat message, that it is up; and with such a message they stop to.
-/
theorem nodeStat_agrees_iff (cfg : HAConfig) (hhosts : HostList cfg.hostList) (m₀ : HAManager)
    (hnew : HAManager.new cfg = some m₀) (m : HAManager)
    (hm : Reachable (haEvent cfg) InTouch m₀ m) :
    Agree m.coreStat
      ∧ ∀ e m', haEvent cfg m e = some m' → (Agree m'.coreStat ↔ InTouch m e) := by
  obtain ⟨c₀, slaves, hstart⟩ := agreed_new hhosts hnew
  have hagreed : Agreed c₀ slaves m := by
    refine hm.invariant hstart fun m e m' h htouch he => ?_
    obtain ⟨hmanaged, hagree⟩ := agree_event h he
    exact ⟨hmanaged, hagree.mpr htouch⟩
  exact ⟨hagreed.2, fun e m' he => (agree_event hagreed he).2⟩

/-- A core-stat message of a node that is up. -/
def coreStatUp (node : Text) : HAEvent :=
  .request (some (.client node)) (coreStatMsg [] .up node)

/--
A master connects and says that it is up, its heartbeat fails, and it connects again and says so
again. The same message, had it come in before the master was back, would have broken the agreement.
-/
theorem nodeStat_pairs : ∃ m₀ failed m, HAManager.new pairsConfig = some m₀
    ∧ Reachable (haEvent pairsConfig) InTouch m₀ failed
    ∧ failed.coreStat.nodeStat[ascii "node1"]? = some .down ∧ Agree failed.coreStat
    ∧ (∀ m', haEvent pairsConfig failed (coreStatUp (ascii "node1")) = some m' →
      ¬ Agree m'.coreStat)
    ∧ Reachable (haEvent pairsConfig) InTouch failed m
    ∧ m.coreStat.nodeStat[ascii "node1"]? = some .up ∧ Agree m.coreStat := by
  have hrun : ((HAManager.new pairsConfig).bind fun m₀ =>
      (run (haEvent pairsConfig) InTouch m₀
        [.request (some (.client (ascii "node1"))) (haConnMsg (ascii "node1")),
          coreStatUp (ascii "node1"), .heartbeatFailed (ascii "node1")]).bind fun failed =>
      (run (haEvent pairsConfig) InTouch failed
        [.request (some (.client (ascii "node1"))) (haConnMsg (ascii "node1")),
          coreStatUp (ascii "node1")]).map
        fun m => decide (failed.coreStat.nodeStat[ascii "node1"]? = some .down
          ∧ ¬ InTouch failed (coreStatUp (ascii "node1"))
          ∧ m.coreStat.nodeStat[ascii "node1"]? = some .up)) = some true := by decide +kernel
  obtain ⟨m₀, hnew, hrun⟩ := Option.bind_eq_some_iff.mp hrun
  obtain ⟨failed, hfailed, hrun⟩ := Option.bind_eq_some_iff.mp hrun
  have hfailed := Reachable.of_run .init hfailed
  obtain ⟨m, hm, hdown, hlate, hup⟩ := Reachable.of_run_decide hrun
  have hagree := nodeStat_agrees_iff pairsConfig hostList_twoPairs m₀ hnew
  exact ⟨m₀, failed, m, hnew, hfailed, hdown, (hagree failed hfailed).1,
    fun m' hm' hsame => hlate (((hagree failed hfailed).2 _ m' hm').mp hsame), hm, hup,
    (hagree m (hfailed.trans hm)).1⟩

/--
A master connects, its heartbeat fails, and the message that it sent after it connected comes in
late: it is up in the table, and offline in the domain map.
-/
theorem nodeStat_late_message : ∃ m₀ m, HAManager.new pairsConfig = some m₀
    ∧ Reachable (haEvent pairsConfig) (fun _ _ => True) m₀ m
    ∧ m.coreStat.nodeStat[ascii "node1"]? = some .up
    ∧ ¬ IsOnline m.coreStat.domainMap (ascii "node1") := by
  have hrun : ((HAManager.new pairsConfig).bind fun m₀ =>
      (run (haEvent pairsConfig) (fun _ _ => True) m₀
        [.request (some (.client (ascii "node1"))) (haConnMsg (ascii "node1")),
          .heartbeatFailed (ascii "node1"), coreStatUp (ascii "node1")]).map
        fun m => decide (m.coreStat.nodeStat[ascii "node1"]? = some .up
          ∧ ascii "node1" ∉ m.coreStat.domainMap.onlineNodeList)) = some true := by decide +kernel
  obtain ⟨m₀, hnew, hrun⟩ := Option.bind_eq_some_iff.mp hrun
  obtain ⟨m, hm, hup, hoff⟩ := Reachable.of_run_decide hrun
  refine ⟨m₀, m, hnew, hm, hup, ?_⟩
  unfold IsOnline
  rw [if_neg (by decide)]
  exact hoff

end HDCS.Proof
