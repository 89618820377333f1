import LockService.Addresses
import LockService.Lib.Run
import LockService.Lib.Store

/-!
# Who is in the cluster

A server knows its peers from the list of addresses it was started with, each under the id that is
its port. `load_config` adds all of them to the configuration it keeps and gives that to Raft, so
the configuration is a set of servers, the same at each of them, while none of the peers was in it
before (`membership_iff`). It adds them again when it is called again
(`not_membership_loaded_twice`).
-/

namespace LockService

/-- The members in `initializeStaticInstance`, each with the address of its endpoint. -/
def initializeStaticInstance (lexicalCast : Str → Option UInt16) (addressList : List Str) :
    Except OptionFault (Dict Str) :=
  (addressList.mapM (makeAddress lexicalCast)).map fun l =>
    l.foldl (fun memberList a => memberList.insertIfNew a.toString a.toString) ∅

/-- `nuraft::srv_config`. -/
structure SrvConfig where
  id : ℤ
  endpoint : Str
  deriving DecidableEq

/-- The id of a member: `int id = a.port`. -/
def Address.id (a : Address) : ℤ := a.port.toNat

/-- The loop of `load_config`; where an address throws, the servers before it are kept. -/
def pushPeers (lexicalCast : Str → Option UInt16) (serverId : ℤ) :
    List (Str × Str) → List SrvConfig → Except OptionFault Unit × List SrvConfig
  | [], servers => (.ok (), servers)
  | (_, address) :: memberList, servers => match makeAddress lexicalCast address with
    | .error f => (.error f, servers)
    | .ok a =>
      if a.id = serverId then pushPeers lexicalCast serverId memberList servers
      else pushPeers lexicalCast serverId memberList (servers ++ [⟨a.id, address⟩])

/-- `inmem_state_mgr`, as far as the configuration goes: the servers of `saved_config_`. -/
structure InmemStateMgr where
  savedConfig : List SrvConfig

namespace InmemStateMgr

/-- The constructor: only this server. -/
def new (srvId : ℤ) (endpoint : Str) : InmemStateMgr := ⟨[⟨srvId, endpoint⟩]⟩

/-- `load_config`; what it returns is `saved_config_`. -/
def loadConfig (lexicalCast : Str → Option UInt16) (memberList : Dict Str) (serverId : ℤ)
    (mgr : InmemStateMgr) : Except OptionFault (List SrvConfig) × InmemStateMgr :=
  match pushPeers lexicalCast serverId memberList.toList mgr.savedConfig with
  | (.error f, servers) => (.error f, ⟨servers⟩)
  | (.ok (), servers) => (.ok servers, ⟨servers⟩)

/-- `save_config`; `copy` is what serializing a configuration and reading it again makes of it. -/
def saveConfig (copy : List SrvConfig → List SrvConfig) (_mgr : InmemStateMgr)
    (config : List SrvConfig) : InmemStateMgr := ⟨copy config⟩

end InmemStateMgr

/-- What Raft asks of the state manager. -/
inductive ConfigOp where
  | loadConfig
  | saveConfig (config : List SrvConfig)

/-- The state manager, and whether its configuration was loaded yet. -/
structure Startup where
  mgr : InmemStateMgr
  loaded : Bool

def ids (config : List SrvConfig) : List ℤ := config.map SrvConfig.id

namespace Startup

def next (lexicalCast : Str → Option UInt16) (memberList : Dict Str) (serverId : ℤ)
    (copy : List SrvConfig → List SrvConfig) (s : Startup) : ConfigOp → Option Startup
  | .loadConfig => match s.mgr.loadConfig lexicalCast memberList serverId with
    | (.ok _, mgr) => some ⟨mgr, true⟩
    | (.error _, _) => none
  | .saveConfig config => some { s with mgr := s.mgr.saveConfig copy config }

/-- The servers of the configuration. -/
def servers (s : Startup) : List ℤ := ids s.mgr.savedConfig

end Startup

/-- A configuration that is loaded has each server once and this one among them, and the first one
has the members. -/
def IsSet (serverId : ℤ) (members : List ℤ) (s : Startup) (op : ConfigOp) (s' : Startup) : Prop :=
  match op with
  | .loadConfig => s'.servers.Nodup ∧ serverId ∈ s'.servers ∧
    (s.loaded = false → s'.servers.Perm members)
  | .saveConfig _ => True

/-- None of the peers is in the configuration before it is loaded, and nobody but the server itself
is before it is loaded first. -/
def NoPeers (serverId : ℤ) (members : List ℤ) (s : Startup) (op : ConfigOp) (_ : Startup) : Prop :=
  match op with
  | .loadConfig => (∀ id ∈ members, id ≠ serverId → id ∉ s.servers) ∧
    (s.loaded = false → ∀ id ∈ s.servers, id = serverId)
  | .saveConfig _ => True

/-- Raft saves a configuration that has no server twice, and this one. -/
def ConfigOp.Proper (serverId : ℤ) : ConfigOp → Prop
  | .loadConfig => True
  | .saveConfig config => (ids config).Nodup ∧ serverId ∈ ids config

section Load

variable {lexicalCast : Str → Option UInt16} {serverId : ℤ}

theorem colon_notMem_address {s : Str} {a : Address} (h : makeAddress lexicalCast s = .ok a) :
    colon ∉ a.address := by
  unfold makeAddress at h
  split at h
  · rename_i address port hs
    split at h
    · obtain rfl := Except.ok.inj h
      exact FileTree.notMem_splitOn s _ (by rw [hs]; exact List.mem_cons_self)
    · cases h
  · cases h

/-- An address that was read is read again from what it is written as. -/
theorem makeAddress_toString (hcast : LexicalCast lexicalCast) {s : Str} {a : Address}
    (h : makeAddress lexicalCast s = .ok a) : makeAddress lexicalCast a.toString = .ok a := by
  have hlt : a.port.toNat < 2 ^ 16 := a.port.toNat_lt
  have hdec := isNumeral_decimal a.port.toNat
  rw [Address.toString, makeAddress_append _ (colon_notMem_address h) (colon_notMem_numeral hdec),
    hcast.numeral _ hdec (by rwa [digitsValue_decimal]), digitsValue_decimal, UInt16.ofNat_toNat]

/-- What an entry of the members is read as. -/
def readMember (lexicalCast : Str → Option UInt16) (node : Str × Str) : Option Address :=
  (makeAddress lexicalCast node.2).toOption

/-- The peers come after the servers there are. -/
theorem pushPeers_spec :
    ∀ {memberList : List (Str × Str)},
      (∀ node ∈ memberList, ∃ a, makeAddress lexicalCast node.2 = .ok a) →
      ∀ servers, ∃ servers',
        pushPeers lexicalCast serverId memberList servers = (.ok (), servers') ∧
          ids servers' = ids servers ++
            ((memberList.filterMap (readMember lexicalCast)).map Address.id).filter
              (· ≠ serverId)
  | [], _, servers => ⟨servers, rfl, by simp⟩
  | node :: memberList, h, servers => by
    obtain ⟨a, ha⟩ := h node (by simp)
    have hread : readMember lexicalCast node = some a := by rw [readMember, ha]; rfl
    have hrec : ∀ servers, _ := pushPeers_spec fun n hn => h n (List.mem_cons_of_mem node hn)
    rw [pushPeers, ha, List.filterMap_cons_some hread, List.map_cons]
    dsimp only
    split_ifs with hself
    · obtain ⟨servers', hok, hids⟩ := hrec servers
      refine ⟨servers', hok, ?_⟩
      rw [hids, List.filter_cons_of_neg (by simpa using hself)]
    · obtain ⟨servers', hok, hids⟩ := hrec (servers ++ [⟨a.id, node.2⟩])
      refine ⟨servers', hok, ?_⟩
      rw [hids, List.filter_cons_of_pos (by simpa using hself)]
      simp [ids]

theorem getElem?_members :
    ∀ (l : List Address) (memberList : Dict Str) (k v : Str),
      (l.foldl (fun memberList a => memberList.insertIfNew a.toString a.toString)
        memberList)[k]? = some v ↔ memberList[k]? = some v ∨
          memberList[k]? = none ∧ v = k ∧ ∃ a ∈ l, a.toString = k
  | [], memberList, k, v => by simp
  | a :: l, memberList, k, v => by
    have hinsert := Std.ExtTreeMap.getElem?_insertIfNew (t := memberList) (k := a.toString) (a := k)
      (v := a.toString)
    simp only [Std.compare_eq_iff_eq] at hinsert
    rw [List.foldl_cons, getElem?_members l, hinsert]
    rcases hk : memberList[k]? with _ | v'
    · have hmem : k ∉ memberList := fun h => by
        obtain ⟨w, hw⟩ := mem_iff_exists_getElem?.mp h
        rw [hk] at hw
        cases hw
      by_cases ha : a.toString = k
      · rw [if_pos ⟨ha, ha ▸ hmem⟩]
        simp only [Option.some.injEq, reduceCtorEq, false_and, or_false, false_or, List.mem_cons,
          exists_eq_or_imp, ha, true_or, and_true, true_and]
        exact eq_comm
      · rw [if_neg fun h => ha h.1]
        simp [ha]
    · have hmem : k ∈ memberList := mem_iff_exists_getElem?.mpr ⟨v', hk⟩
      rw [if_neg fun h => h.2 (h.1 ▸ hmem)]
      simp

theorem mem_of_mapM {α β ε : Type} {f : α → Except ε β} :
    ∀ {l : List α} {l' : List β}, l.mapM f = .ok l' → ∀ b ∈ l', ∃ a, f a = .ok b
  | [], l', h, b, hb => by
    obtain rfl : [] = l' := Except.ok.inj h
    cases hb
  | a :: l, l', h, b, hb => by
    rw [List.mapM_cons] at h
    rcases ha : f a with e | c
    · rw [ha] at h
      cases h
    · rcases hl : l.mapM f with e | l''
      · rw [ha, hl] at h
        cases h
      · rw [ha, hl] at h
        obtain rfl : c :: l'' = l' := Except.ok.inj h
        rcases List.mem_cons.mp hb with rfl | hb
        · exact ⟨a, ha⟩
        · exact mem_of_mapM hl b hb

/-- Every member has one entry, which is read as that member. -/
theorem members_perm (hcast : LexicalCast lexicalCast) {addressList : List Str}
    {members : List Address} (hread : addressList.mapM (makeAddress lexicalCast) = .ok members)
    (hports : (members.map Address.id).Nodup) {memberList : Dict Str}
    (hlist : initializeStaticInstance lexicalCast addressList = .ok memberList) :
    (∀ node ∈ memberList.toList, ∃ a, makeAddress lexicalCast node.2 = .ok a) ∧
      (memberList.toList.filterMap (readMember lexicalCast)).Perm members := by
  have hmembers := mem_of_mapM hread
  have hself : ∀ a ∈ members, readMember lexicalCast (a.toString, a.toString) = some a := by
    intro a ha
    obtain ⟨s, hs⟩ := hmembers a ha
    rw [readMember, makeAddress_toString hcast hs]
    rfl
  rw [initializeStaticInstance, hread] at hlist
  obtain rfl := Except.ok.inj hlist
  have hmem : ∀ node, node ∈ (members.foldl (fun memberList a =>
      memberList.insertIfNew a.toString a.toString) (∅ : Dict Str)).toList ↔
        node ∈ members.map fun a => (a.toString, a.toString) := by
    rintro ⟨k, v⟩
    rw [Std.ExtTreeMap.mem_toList_iff_getElem?_eq_some, getElem?_members, List.mem_map]
    simp only [Std.ExtTreeMap.getElem?_empty, reduceCtorEq, false_or, true_and, Prod.mk.injEq]
    constructor
    · rintro ⟨rfl, a, ha, rfl⟩
      exact ⟨a, ha, rfl, rfl⟩
    · rintro ⟨a, ha, rfl, rfl⟩
      exact ⟨rfl, a, ha, rfl⟩
  refine ⟨fun node hnode => ?_, ?_⟩
  · obtain ⟨a, ha, rfl⟩ := List.mem_map.mp ((hmem node).mp hnode)
    obtain ⟨s, hs⟩ := hmembers a ha
    exact ⟨a, makeAddress_toString hcast hs⟩
  · have hnodup := Std.ExtTreeMap.distinct_keys_toList (t := members.foldl (fun memberList a =>
      memberList.insertIfNew a.toString a.toString) (∅ : Dict Str))
    have hinj : ∀ a ∈ members, ∀ b ∈ members,
        (a.toString, a.toString) = (b.toString, b.toString) → a = b := by
      intro a ha b hb hab
      have hread := hself a ha
      rw [hab, hself b hb] at hread
      exact (Option.some.inj hread).symm
    have hperm := (List.perm_ext_iff_of_nodup (hnodup.imp ?_)
      ((List.Nodup.of_map _ hports).map_on hinj)).mpr hmem
    · have hfilter := hperm.filterMap (readMember lexicalCast)
      have hall : (members.map fun a => (a.toString, a.toString)).filterMap
          (readMember lexicalCast) = members := by
        rw [List.filterMap_map]
        exact (List.filterMap_congr hself).trans List.filterMap_some
      rwa [hall] at hfilter
    · rintro x y hne rfl
      exact hne (Std.ReflOrd.compare_self)

variable {members : List ℤ} {servers : List ℤ}

/-- Once each others' ids are disjoint the list has no id twice. -/
theorem nodup_load (hm : members.Nodup) (hs : servers.Nodup) :
    (servers ++ members.filter (· ≠ serverId)).Nodup ↔
      ∀ id ∈ members, id ≠ serverId → id ∉ servers := by
  rw [List.nodup_append']
  constructor
  · exact fun h id hid hne hin => h.2.2 hin (List.mem_filter.mpr ⟨hid, by simpa using hne⟩)
  · refine fun h => ⟨hs, hm.filter _, fun id hin hfilter => ?_⟩
    obtain ⟨hid, hne⟩ := List.mem_filter.mp hfilter
    exact h id hid (by simpa using hne) hin

/-- And it has the members when there was nobody but the server itself. -/
theorem perm_load (hm : members.Nodup) (hself : serverId ∈ members) (hs : servers.Nodup)
    (hin : serverId ∈ servers) (hdisjoint : ∀ id ∈ members, id ≠ serverId → id ∉ servers) :
    (servers ++ members.filter (· ≠ serverId)).Perm members ↔ ∀ id ∈ servers, id = serverId := by
  constructor
  · intro hperm id hid
    by_contra hne
    exact hdisjoint id (hperm.mem_iff.mp (List.mem_append_left _ hid)) hne hid
  · intro honly
    refine (List.perm_ext_iff_of_nodup ((nodup_load hm hs).mpr hdisjoint) hm).mpr fun id => ?_
    rw [List.mem_append, List.mem_filter, decide_eq_true_eq]
    constructor
    · rintro (hid | ⟨hid, -⟩)
      · exact honly id hid ▸ hself
      · exact hid
    · intro hid
      by_cases hne : id = serverId
      · exact .inl (hne ▸ hin)
      · exact .inr ⟨hid, hne⟩

/-- A configuration that is loaded has the servers it had and all peers. -/
theorem next_loadConfig {memberList : Dict Str} {members : List Address}
    (hnodes : ∀ node ∈ memberList.toList, ∃ a, makeAddress lexicalCast node.2 = .ok a)
    (hperm : (memberList.toList.filterMap (readMember lexicalCast)).Perm members)
    (copy : List SrvConfig → List SrvConfig) (s : Startup) :
    ∃ s', Startup.next lexicalCast memberList serverId copy s .loadConfig = some s' ∧
      s'.servers.Perm (s.servers ++ (members.map Address.id).filter (· ≠ serverId)) := by
  obtain ⟨servers', hok, hids⟩ := pushPeers_spec hnodes s.mgr.savedConfig
  refine ⟨⟨⟨servers'⟩, true⟩, ?_, ?_⟩
  · rw [Startup.next, InmemStateMgr.loadConfig, hok]
  · rw [Startup.servers, hids]
    exact ((hperm.map _).filter _).append_left _

/-- The configurations are sets exactly while no load finds a peer in what it adds to. -/
theorem membership_iff (hcast : LexicalCast lexicalCast) {addressList : List Str}
    {members : List Address} (hread : addressList.mapM (makeAddress lexicalCast) = .ok members)
    (hports : (members.map Address.id).Nodup) (hself : serverId ∈ members.map Address.id)
    {copy : List SrvConfig → List SrvConfig} (hcopy : ∀ config, ids (copy config) = ids config)
    (endpoint : Str) {ops : List ConfigOp} (hops : ∀ op ∈ ops, op.Proper serverId) :
    ∃ memberList, initializeStaticInstance lexicalCast addressList = .ok memberList ∧
      (Run.run (Startup.next lexicalCast memberList serverId copy)
        ⟨.new serverId endpoint, false⟩ ops).isSome ∧
      (Run.Along (Startup.next lexicalCast memberList serverId copy)
          (IsSet serverId (members.map Address.id)) ⟨.new serverId endpoint, false⟩ ops ↔
        Run.Along (Startup.next lexicalCast memberList serverId copy)
          (NoPeers serverId (members.map Address.id)) ⟨.new serverId endpoint, false⟩ ops) := by
  obtain ⟨memberList, hlist⟩ : ∃ memberList,
      initializeStaticInstance lexicalCast addressList = .ok memberList := by
    rw [initializeStaticInstance, hread]
    exact ⟨_, rfl⟩
  obtain ⟨hnodes, hperm⟩ := members_perm hcast hread hports hlist
  have hload := fun s => @next_loadConfig lexicalCast serverId _ _ hnodes hperm copy s
  refine ⟨memberList, hlist, Run.isSome_run (fun s op => ?_) _ _, ?_⟩
  · cases op with
    | loadConfig =>
      obtain ⟨s', hnext, -⟩ := hload s
      rw [hnext]
      rfl
    | saveConfig config => rfl
  refine Run.along_congr (I := fun s => s.servers.Nodup ∧ serverId ∈ s.servers)
    (R := fun _ op _ => op.Proper serverId) (fun s op s' hI hproper hnext => ?_) ?_
    (Run.along_of_forall hops)
  · cases op with
    | saveConfig config =>
      obtain rfl := Option.some.inj hnext
      refine ⟨Iff.rfl, fun _ => ?_⟩
      show (ids (copy config)).Nodup ∧ serverId ∈ ids (copy config)
      rw [hcopy]
      exact hproper
    | loadConfig =>
      obtain ⟨t, ht, hservers⟩ := hload s
      obtain rfl : t = s' := Option.some.inj (ht.symm.trans hnext)
      refine ⟨?_, fun hset => ⟨hset.1, hset.2.1⟩⟩
      have hin : serverId ∈ t.servers := hservers.mem_iff.mpr (List.mem_append_left _ hI.2)
      have hnodup := hservers.nodup_iff.trans (nodup_load hports hI.1)
      have hsame : t.servers.Perm (members.map Address.id) ↔
          (s.servers ++ (members.map Address.id).filter (· ≠ serverId)).Perm
            (members.map Address.id) :=
        ⟨hservers.symm.trans, hservers.trans⟩
      constructor
      · rintro ⟨hset, -, hfirst⟩
        have hdisjoint := hnodup.mp hset
        exact ⟨hdisjoint, fun hnew =>
          (perm_load hports hself hI.1 hI.2 hdisjoint).mp (hsame.mp (hfirst hnew))⟩
      · rintro ⟨hdisjoint, hfirst⟩
        exact ⟨hnodup.mpr hdisjoint, hin, fun hnew =>
          hsame.mpr ((perm_load hports hself hI.1 hI.2 hdisjoint).mpr (hfirst hnew))⟩
  · exact ⟨List.nodup_singleton _, List.mem_singleton_self _⟩

end Load

/-- Two servers, and the first of them loads its configuration. -/
theorem membership_iff_loaded_once : ∃ memberList,
    initializeStaticInstance ushortCast [ascii ['h', ':', '1'], ascii ['h', ':', '2']] =
        .ok memberList ∧
      (Run.run (Startup.next ushortCast memberList 1 id) ⟨.new 1 (ascii ['h', ':', '1']), false⟩
        [.loadConfig]).isSome ∧
      (Run.Along (Startup.next ushortCast memberList 1 id) (IsSet 1 [1, 2])
          ⟨.new 1 (ascii ['h', ':', '1']), false⟩ [.loadConfig] ↔
        Run.Along (Startup.next ushortCast memberList 1 id) (NoPeers 1 [1, 2])
          ⟨.new 1 (ascii ['h', ':', '1']), false⟩ [.loadConfig]) := by
  have hread : [ascii ['h', ':', '1'], ascii ['h', ':', '2']].mapM (makeAddress ushortCast) =
      .ok [⟨ascii ['h'], 1⟩, ⟨ascii ['h'], 2⟩] := by decide +kernel
  exact membership_iff lexicalCast_ushortCast hread (by decide) (by decide) (fun _ => rfl) _
    (fun op hop => by rw [List.mem_singleton.mp hop]; trivial)

/-- When it loads it once more, the second server is there twice. -/
theorem not_membership_loaded_twice : ∃ memberList,
    initializeStaticInstance ushortCast [ascii ['h', ':', '1'], ascii ['h', ':', '2']] =
        .ok memberList ∧
      ¬ Run.Along (Startup.next ushortCast memberList 1 id) (IsSet 1 [1, 2])
        ⟨.new 1 (ascii ['h', ':', '1']), false⟩ [.loadConfig, .loadConfig] := by
  obtain ⟨memberList, hlist, hrun⟩ := (Option.any_eq_true _ _).mp (by decide +kernel :
    (initializeStaticInstance ushortCast
      [ascii ['h', ':', '1'], ascii ['h', ':', '2']]).toOption.any fun memberList =>
        (Run.run (Startup.next ushortCast memberList 1 id)
          ⟨.new 1 (ascii ['h', ':', '1']), false⟩ [.loadConfig, .loadConfig]).any fun s =>
            ¬ s.servers.Nodup)
  obtain ⟨s₂, hs₂, htwice⟩ := (Option.any_eq_true _ _).mp hrun
  obtain ⟨s₁, hs₁, hs₂⟩ := Run.run_cons_eq_some.mp hs₂
  obtain ⟨t, ht, hs₂⟩ := Run.run_cons_eq_some.mp hs₂
  obtain rfl := Option.some.inj hs₂
  refine ⟨memberList, ?_, fun halong => ?_⟩
  · rcases hi : initializeStaticInstance ushortCast
        [ascii ['h', ':', '1'], ascii ['h', ':', '2']] with e | l
    · rw [hi] at hlist
      cases hlist
    · rw [hi] at hlist
      obtain rfl : l = memberList := Option.some.inj hlist
      rfl
  · exact of_decide_eq_true htwice ((halong s₁ hs₁).2 _ ht).1.1

end LockService
