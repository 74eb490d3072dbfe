import HDCS.Core.HACluster

/-!
# What the messages of the HA layer are read back as

A domain item is written as a byte and a row of fields of 32 bytes, one for each host, so it is read
back as long as the names leave a zero at the end of their fields.

The header of a core status message is read back in the same way. Its lines are 16 bytes long and
are loaded one byte apart: every line but the last is run over by the next. The last but one ends up
with the highest byte of the last pointer for a status, which no status is if the pointer is an
address.
-/

namespace HDCS.Proof

open Lib Wire List

/-! ## Domain items -/

theorem domainItemBytes_eq {item : List Text} (hlen : item.length ≤ 255)
    (hname : ∀ name ∈ item, name.length ≤ 32) :
    domainItemBytes item = HAMsgType.code .domainMap :: item.flatMap (field 32) := by
  have hnum : item.length % 256 = item.length := Nat.mod_eq_of_lt (by omega)
  have hbuf : (List.replicate (1 + 32 * item.length) (0 : UInt8)).set 0 (HAMsgType.code .domainMap)
      = [HAMsgType.code .domainMap] ++ List.replicate (32 * item.length) 0 := by
    rw [Nat.add_comm, replicate_succ, set_cons_zero]
    rfl
  unfold domainItemBytes
  dsimp only
  rw [hnum, hbuf]
  exact foldl_overwrite_zeros 1 32 item 0 [HAMsgType.code .domainMap] rfl hname

theorem getDomainItem_domainItemMsg {item : List Text} (hlen : item.length ≤ 255)
    (hname : ∀ name ∈ item, name.length ≤ 31 ∧ 0 ∉ name) :
    getDomainItem (domainItemMsg item) = item := by
  have hwide : ∀ name ∈ item, name.length ≤ 32 := fun name h => Nat.le_succ_of_le (hname name h).1
  have hnum : ((domainItemBytes item).length - 1) / 32 % 256 = item.length := by
    rw [length_domainItemBytes]
    omega
  have hdrop : ∀ i, (domainItemBytes item).drop (1 + 32 * i)
      = (item.flatMap (field 32)).drop (32 * i) := by
    intro i
    rw [domainItemBytes_eq hlen hwide, Nat.add_comm, drop_succ_cons]
  show (List.range (((domainItemBytes item).length - 1) / 32 % 256)).map
    (fun i => cString ((domainItemBytes item).drop (1 + 32 * i))) = item
  rw [hnum, funext fun i => congrArg cString (hdrop i)]
  exact map_drop_flatMap (fun name h => length_field (hwide name h))
    fun name h => cString_field (Nat.lt_succ_of_le (hname name h).1) (hname name h).2

/-- **Domain items are read back**, and the client that gets one has it. Behind the byte that tells
the kind the buffer is a row of fields: every copy is inside its own. -/
theorem domainItem_roundTrip (item : List Text) (hlen : item.length ≤ 255)
    (hname : ∀ name ∈ item, name.length ≤ 31 ∧ 0 ∉ name) :
    getDomainItem (domainItemMsg item) = item
      ∧ (∀ (k : HAClient) session, k.requestHandler session (domainItemMsg item)
          = some ({ k with domainItem := item }, []))
      ∧ (domainItemMsg item).bytes = HAMsgType.code .domainMap :: item.flatMap (field 32)
      ∧ ∀ i name, item[i]? = some name →
          1 + 32 * i + name.length ≤ 1 + 32 * (i + 1)
            ∧ 1 + 32 * (i + 1) ≤ (domainItemMsg item).bytes.length := by
  have hread := getDomainItem_domainItemMsg hlen hname
  have hbytes : (domainItemMsg item).bytes
      = HAMsgType.code .domainMap :: item.flatMap (field 32) :=
    domainItemBytes_eq hlen fun name h => Nat.le_succ_of_le (hname name h).1
  refine ⟨hread, ?_, hbytes, ?_⟩
  · intro k session
    unfold HAClient.requestHandler
    rw [hbytes]
    show some ({ k with domainItem := getDomainItem (domainItemMsg item) }, []) = _
    rw [hread]
  · intro i name hi
    have hmem := hname name (mem_of_getElem? hi)
    have hi : i < item.length := (List.getElem?_eq_some_iff.mp hi).1
    have hsize : (domainItemMsg item).bytes.length = 1 + 32 * (item.length % 256) :=
      length_domainItemBytes item
    omega

/-- Two hosts, and an empty name between them. -/
theorem domainItem_roundTrip_three :
    getDomainItem (domainItemMsg [ascii "hdcs-0", [], ascii "hdcs-1"])
      = [ascii "hdcs-0", [], ascii "hdcs-1"] :=
  (domainItem_roundTrip _ (by decide) (by decide)).1

/-! ## Core status -/

theorem length_coreStatImage (core : UInt64) (stat : CoreStat) :
    (coreStatImage core stat).length = 16 := by
  rw [coreStatImage, length_append, length_encode, length_cons, length_replicate]

def coreStatHeader (nodeStat : NodeStat) (name : Text) : List UInt8 :=
  HAMsgType.code .coreStat :: (field 32 name ++ [nodeStat.code])

def coreLines (cores : List (UInt64 × CoreStat)) : List UInt8 :=
  cores.zipIdx.foldl (fun buf x => overwrite buf (x.2 % 256) (coreStatImage x.1.1 x.1.2))
    (List.replicate (16 * cores.length) 0)

theorem length_coreStatHeader {nodeStat : NodeStat} {name : Text} (hname : name.length ≤ 32) :
    (coreStatHeader nodeStat name).length = 34 := by
  rw [coreStatHeader, length_cons, length_append, length_field hname]
  rfl

theorem coreStatBytes_eq {cores : List (UInt64 × CoreStat)} (nodeStat : NodeStat) {name : Text}
    (hcores : cores.length ≤ 255) (hname : name.length ≤ 32) :
    coreStatBytes cores nodeStat name = coreStatHeader nodeStat name ++ coreLines cores := by
  have hnum : cores.length % 256 = cores.length := Nat.mod_eq_of_lt (by omega)
  have hbuf : ((List.replicate (34 + 16 * cores.length) (0 : UInt8)).set 0
        (HAMsgType.code .coreStat)).set 33 nodeStat.code
      = [HAMsgType.code .coreStat] ++ (List.replicate 32 0
          ++ nodeStat.code :: List.replicate (16 * cores.length) 0) := by
    rw [show 34 + 16 * cores.length = 32 + (16 * cores.length + 1) + 1 by omega,
      replicate_succ, ← replicate_append_replicate, set_cons_zero,
      set_cons_succ, set_append_right _ _ (by rw [length_replicate]),
      length_replicate, Nat.sub_self, replicate_succ (n := 16 * cores.length),
      set_cons_zero]
    rfl
  have hheader : overwrite ([HAMsgType.code .coreStat] ++ (List.replicate 32 0
        ++ nodeStat.code :: List.replicate (16 * cores.length) 0)) 1 name
      = coreStatHeader nodeStat name ++ List.replicate (16 * cores.length) 0 := by
    rw [show 1 = [HAMsgType.code .coreStat].length + 0 from rfl, overwrite_append,
      overwrite_zeros hname, coreStatHeader, cons_append (a := HAMsgType.code .coreStat),
      cons_append, append_assoc]
    rfl
  have hlines := foldl_overwrite_append (coreStatHeader nodeStat name)
    (fun x : (UInt64 × CoreStat) × Nat => x.2 % 256) (fun x => coreStatImage x.1.1 x.1.2)
    cores.zipIdx (List.replicate (16 * cores.length) 0)
  rw [length_coreStatHeader hname] at hlines
  unfold coreStatBytes
  dsimp only
  rw [hnum, hbuf, hheader]
  exact hlines

theorem readline_coreStatMsg {cores : List (UInt64 × CoreStat)} (nodeStat : NodeStat) {name : Text}
    (hcores : cores.length ≤ 255) (hname : name.length ≤ 32) {i : Nat} (hi : i ≤ 255) :
    readline (coreStatMsg cores nodeStat name) i
      = (UInt64.ofNat (decode ((((coreLines cores).drop i).take 16).take 8)),
          .ofCode ((((coreLines cores).drop i).take 16).getD 8 0)) := by
  have hdrop : (coreStatMsg cores nodeStat name).bytes.drop (34 + i % 256)
      = (coreLines cores).drop i := by
    rw [show (coreStatMsg cores nodeStat name).bytes = coreStatBytes cores nodeStat name from rfl,
      coreStatBytes_eq nodeStat hcores hname, Nat.mod_eq_of_lt (by omega),
      ← length_coreStatHeader hname, drop_length_add_append]
  unfold readline
  rw [hdrop]

theorem coreLines_concat (cores : List (UInt64 × CoreStat)) (core : UInt64 × CoreStat)
    (hcores : cores.length ≤ 255) : ∃ buf : List UInt8, buf.length = 16 * (cores.length + 1)
      ∧ coreLines (cores ++ [core])
          = overwrite buf cores.length (coreStatImage core.1 core.2) := by
  refine ⟨cores.zipIdx.foldl (fun buf x =>
    overwrite buf (x.2 % 256) (coreStatImage x.1.1 x.1.2))
      (List.replicate (16 * (cores.length + 1)) 0), ?_, ?_⟩
  · rw [length_foldl_overwrite (fun x : (UInt64 × CoreStat) × Nat => x.2 % 256)
      (fun x => coreStatImage x.1.1 x.1.2), length_replicate]
  · rw [coreLines, zipIdx_append, foldl_append, length_append, length_singleton,
      Nat.zero_add, zipIdx_singleton, foldl_cons, foldl_nil]
    dsimp only
    rw [Nat.mod_eq_of_lt (by omega)]

/-- Every line that was loaded is read back. -/
def LinesReadBack (c : Content) (cores : List (UInt64 × CoreStat)) : Prop :=
  ∀ i core, cores[i]? = some core → (readline c i).1 = core.1 ∧ (readline c i).2.code = core.2.code

theorem readline_last (cores : List (UInt64 × CoreStat)) (core : UInt64 × CoreStat)
    (nodeStat : NodeStat) {name : Text} (hcores : (cores ++ [core]).length ≤ 255)
    (hname : name.length ≤ 32) :
    (readline (coreStatMsg (cores ++ [core]) nodeStat name) cores.length).1 = core.1
      ∧ (readline (coreStatMsg (cores ++ [core]) nodeStat name) cores.length).2.code
          = core.2.code := by
  have hlen : cores.length ≤ 255 := by
    rw [length_append] at hcores
    omega
  obtain ⟨buf, hbuf, hlines⟩ := coreLines_concat cores core hlen
  have himage : ((coreLines (cores ++ [core])).drop cores.length).take 16
      = coreStatImage core.1 core.2 := by
    rw [hlines, ← length_coreStatImage core.1 core.2]
    exact take_drop_overwrite (by rw [length_coreStatImage, hbuf]; omega)
  have hid : (coreStatImage core.1 core.2).take 8 = encode 8 core.1.toNat :=
    take_left' (length_encode 8 _)
  have hstat : (coreStatImage core.1 core.2).getD 8 0 = core.2.code := by
    rw [getD_eq_getElem?_getD, coreStatImage,
      getElem?_append_right (by rw [length_encode]), length_encode]
    rfl
  rw [readline_coreStatMsg nodeStat hcores hname hlen, himage, hid, hstat, decode_encode_uint64]
  exact ⟨rfl, CoreStat.code_ofCode _⟩

theorem readline_last_but_one (cores : List (UInt64 × CoreStat)) (core last : UInt64 × CoreStat)
    (nodeStat : NodeStat) {name : Text} (hcores : (cores ++ [core] ++ [last]).length ≤ 255)
    (hname : name.length ≤ 32) :
    (readline (coreStatMsg (cores ++ [core] ++ [last]) nodeStat name) cores.length).2.code
      = UInt8.ofNat (last.1.toNat / 256 ^ 7) := by
  have hlen : cores.length + 2 ≤ 255 := by
    rw [length_append, length_append] at hcores
    exact hcores
  obtain ⟨buf, hbuf, hlines⟩ := coreLines_concat (cores ++ [core]) last (by simp; omega)
  rw [length_append, length_singleton] at hbuf hlines
  have hbyte : (((coreLines (cores ++ [core] ++ [last])).drop cores.length).take 16).getD 8 0
      = UInt8.ofNat (last.1.toNat / 256 ^ 7) := by
    rw [getD_eq_getElem?_getD, getElem?_take_of_lt (by omega), getElem?_drop, hlines,
      show cores.length + 8 = cores.length + 1 + 7 from rfl,
      getElem?_overwrite (by rw [length_coreStatImage]; omega)
        (by rw [length_coreStatImage, hbuf]; omega), coreStatImage,
      getElem?_append_left (by rw [length_encode]; omega),
      getElem?_encode _ (by omega), Option.getD_some]
  rw [readline_coreStatMsg nodeStat hcores hname (by omega), hbyte]
  exact CoreStat.code_ofCode _

/-- **Core status messages are read back but for their lines.** The lines are read back if there is
one at most, and else they are not: pointers are less than 56 bits wide, and no status is zero. -/
theorem coreStat_roundTrip (cores : List (UInt64 × CoreStat)) (nodeStat : NodeStat) (name : Text)
    (hcores : cores.length ≤ 255) (hname : name.length ≤ 31) (hzero : 0 ∉ name) :
    getNodeName (coreStatMsg cores nodeStat name) = name
      ∧ (getNodeStat (coreStatMsg cores nodeStat name)).code = nodeStat.code
      ∧ getCoresNum (coreStatMsg cores nodeStat name) = cores.length
      ∧ (cores.length ≤ 1 → LinesReadBack (coreStatMsg cores nodeStat name) cores)
      ∧ ((∀ core ∈ cores, core.1.toNat < 2 ^ 56 ∧ core.2.code ≠ 0) →
          LinesReadBack (coreStatMsg cores nodeStat name) cores → cores.length ≤ 1) := by
  have hwide : name.length ≤ 32 := Nat.le_succ_of_le hname
  have hbytes : (coreStatMsg cores nodeStat name).bytes
      = coreStatHeader nodeStat name ++ coreLines cores := coreStatBytes_eq nodeStat hcores hwide
  refine ⟨?_, ?_, ?_, ?_, ?_⟩
  · rw [getNodeName, hbytes, coreStatHeader, cons_append, drop_succ_cons, drop_zero, append_assoc]
    exact cString_field (Nat.lt_succ_of_le hname) hzero _
  · have hbyte : (coreStatHeader nodeStat name ++ coreLines cores)[33]? = some nodeStat.code := by
      rw [coreStatHeader, cons_append, getElem?_cons_succ, append_assoc,
        getElem?_append_right (by rw [length_field hwide]), length_field hwide]
      rfl
    rw [getNodeStat, hbytes, getD_eq_getElem?_getD, hbyte]
    exact NodeStat.code_ofCode _
  · have hsize : (coreStatMsg cores nodeStat name).bytes.length = 34 + 16 * (cores.length % 256) :=
      length_coreStatBytes cores nodeStat name
    rw [getCoresNum, hsize]
    omega
  · intro hone i core hi
    obtain ⟨hlt, rfl⟩ := List.getElem?_eq_some_iff.mp hi
    obtain rfl : i = 0 := by omega
    obtain ⟨core, rfl⟩ := length_eq_one_iff.mp (by omega : cores.length = 1)
    exact readline_last [] core nodeStat hcores hwide
  · intro hreal hread
    -- the last two lines, if there are two
    rcases eq_nil_or_concat' cores with rfl | ⟨front, last, rfl⟩
    · exact Nat.zero_le 1
    rcases eq_nil_or_concat' front with rfl | ⟨cs, core, rfl⟩
    · exact Nat.le_refl 1
    exfalso
    have hline : (cs ++ [core] ++ [last])[cs.length]? = some core := by simp
    have hstat := (hread cs.length core hline).2
    rw [readline_last_but_one cs core last nodeStat hcores hwide] at hstat
    have htop : last.1.toNat / 256 ^ 7 = 0 := Nat.div_eq_of_lt (hreal last (by simp)).1
    rw [htop] at hstat
    exact (hreal core (by simp)).2 hstat.symm

/-- A core in error on a node that is up. -/
theorem coreStat_roundTrip_one :
    getNodeName (coreStatMsg [(0x7f00a0, .error)] .up (ascii "hdcs-0")) = ascii "hdcs-0"
      ∧ LinesReadBack (coreStatMsg [(0x7f00a0, .error)] .up (ascii "hdcs-0"))
          [(0x7f00a0, .error)] :=
  have h := coreStat_roundTrip [(0x7f00a0, .error)] .up (ascii "hdcs-0") (by decide) (by decide)
    (by decide)
  ⟨h.1, h.2.2.2.1 (by decide)⟩

/-- With two cores the first line is not what was loaded: neither the pointer nor the status. -/
theorem coreStat_lines_overlap :
    readline (coreStatMsg [(0x7f00a0, .error), (0x7f00b0, .ok)] .up (ascii "hdcs-0")) 0
        = (0x7f00b0a0, .other 0)
      ∧ ¬ LinesReadBack (coreStatMsg [(0x7f00a0, .error), (0x7f00b0, .ok)] .up (ascii "hdcs-0"))
          [(0x7f00a0, .error), (0x7f00b0, .ok)] := by
  have hline : readline
      (coreStatMsg [(0x7f00a0, .error), (0x7f00b0, .ok)] .up (ascii "hdcs-0")) 0
        = (0x7f00b0a0, .other 0) := by decide +kernel
  refine ⟨hline, fun h => ?_⟩
  have hfirst := (h 0 (0x7f00a0, .error) rfl).1
  rw [hline] at hfirst
  cases hfirst

end HDCS.Proof
