import LogReplicator.Config.FromEnv
import LogReplicator.Raft.Voting

/-!
# One peer list for all nodes

Every node reads the same `RAFT_PEERS` and leaves its own entry out.  So the nodes of the
list agree on the members of the cluster, their majorities meet, and their options are
those of the cluster model.
-/

namespace LogReplicator

open Library Library.Text

namespace NodeConfig

/-- The ids that occur in a peer list. -/
def itemIDs (raw : Bytes) : List Bytes :=
  (split 44 raw).map fun item => (cut 61 (trimSpace item)).1

/-- The entries of a peer list that is accepted. -/
structure Lists (raw : Bytes) (members : List Peer) : Prop where
  blank : trimSpace raw = [] → members = []
  items : trimSpace raw ≠ [] → (split 44 raw).mapM readItem = some members
  nodup : (members.map Peer.id).Nodup

section Items

variable {raw selfID id : Bytes} {item : Bytes} {items seen : List Bytes}
variable {peer : Peer} {peers members result : List Peer}

theorem readItem_id
    (h : readItem item = some peer) :
    (cut 61 (trimSpace item)).1 = peer.id ∧ peer.id ≠ [] := by
  unfold readItem at h
  simp only at h
  split_ifs at h with hbad
  cases h
  exact ⟨rfl, fun hempty => hbad (Or.inr (Or.inl hempty))⟩

theorem mapM_readItem_cons :
    (item :: items).mapM readItem = some members ↔
      ∃ peer rest, readItem item = some peer ∧ items.mapM readItem = some rest ∧
        members = peer :: rest := by
  rw [List.mapM_cons]
  simp only [Option.bind_eq_bind, Option.bind_eq_some_iff, Option.pure_def,
    Option.some.injEq]
  constructor
  · rintro ⟨peer, hpeer, rest, hrest, rfl⟩
    exact ⟨peer, rest, hpeer, hrest, rfl⟩
  · rintro ⟨peer, rest, hpeer, hrest, rfl⟩
    exact ⟨peer, hpeer, rest, hrest, rfl⟩

/-- The ids of entries that can be read. -/
theorem map_id_of_mapM
    (h : items.mapM readItem = some members) :
    members.map Peer.id = items.map (fun item => (cut 61 (trimSpace item)).1) ∧
      ∀ m ∈ members, m.id ≠ [] := by
  induction items generalizing members with
  | nil =>
      cases h
      exact ⟨rfl, by simp⟩
  | cons item items ih =>
      obtain ⟨peer, rest, hpeer, hrest, rfl⟩ := mapM_readItem_cons.mp h
      obtain ⟨hids, hnamed⟩ := ih hrest
      obtain ⟨hid, hne⟩ := readItem_id hpeer
      constructor
      · rw [List.map_cons, List.map_cons, hids, hid]
      · exact List.forall_mem_cons.mpr ⟨hne, hnamed⟩

/-- What the loop accepts from a state on. -/
structure Collects (selfID : Bytes) (seen : List Bytes) (peers members result : List Peer) :
    Prop where
  nodup : (members.map Peer.id).Nodup
  fresh : ∀ m ∈ members, m.id ∉ seen
  result : result = peers ++ members.filter fun m => decide (m.id ≠ selfID)

/-- An entry with a new id is remembered, and kept unless it is the node's own. -/
theorem collects_cons :
    Collects selfID seen peers (peer :: members) result ↔
      peer.id ∉ seen ∧
        Collects selfID (peer.id :: seen)
          (peers ++ [peer].filter fun m => decide (m.id ≠ selfID)) members result := by
  have hfilter : peers ++ (peer :: members).filter (fun m => decide (m.id ≠ selfID)) =
      peers ++ [peer].filter (fun m => decide (m.id ≠ selfID)) ++
        members.filter (fun m => decide (m.id ≠ selfID)) := by
    rw [List.append_assoc, ← List.filter_append]
    rfl
  constructor
  · rintro ⟨hnodup, hfresh, hresult⟩
    rw [List.map_cons, List.nodup_cons] at hnodup
    obtain ⟨hpeer, hmembers⟩ := List.forall_mem_cons.mp hfresh
    refine ⟨hpeer, hnodup.2, fun m hm hseen => ?_, hresult.trans hfilter⟩
    rcases List.mem_cons.mp hseen with hid | hseen
    · exact hnodup.1 (hid ▸ List.mem_map_of_mem hm)
    · exact hmembers m hm hseen
  · rintro ⟨hpeer, hnodup, hfresh, hresult⟩
    refine ⟨?_, List.forall_mem_cons.mpr ⟨hpeer, fun m hm hseen => ?_⟩,
      hresult.trans hfilter.symm⟩
    · rw [List.map_cons, List.nodup_cons]
      refine ⟨fun hmem => ?_, hnodup⟩
      obtain ⟨m, hm, hid⟩ := List.mem_map.mp hmem
      exact hfresh m hm (hid ▸ List.mem_cons_self)
    · exact hfresh m hm (List.mem_cons_of_mem _ hseen)

/-- The loop accepts entries that can be read and whose ids are new, and it keeps those
of the other nodes. -/
theorem parseItems_eq_ok :
    parseItems selfID items seen peers = .ok result ↔
      ∃ members, items.mapM readItem = some members ∧
        Collects selfID seen peers members result := by
  induction items generalizing seen peers with
  | nil =>
      unfold parseItems
      constructor
      · intro h
        cases h
        exact ⟨[], rfl, List.nodup_nil, by simp, by simp⟩
      · rintro ⟨members, hmembers, hcollects⟩
        cases hmembers
        rw [hcollects.result, List.reverse_nil, List.filter_nil, List.append_nil]
  | cons item items ih =>
      unfold parseItems
      cases hitem : readItem item with
      | none =>
          simp [hitem]
      | some peer =>
          have hkept : (if peer.id ≠ selfID then
                parseItems selfID items (peer.id :: seen) (peers ++ [peer])
              else parseItems selfID items (peer.id :: seen) peers) =
              parseItems selfID items (peer.id :: seen)
                (peers ++ [peer].filter fun m => decide (m.id ≠ selfID)) := by
            by_cases hself : peer.id ≠ selfID
            · simp [hself]
            · simp [not_not.mp hself]
          simp only [hkept]
          split_ifs with hseen
          · constructor
            · intro h
              cases h
            · rintro ⟨members, hmembers, hcollects⟩
              obtain ⟨_, rest, ⟨⟩, -, rfl⟩ := hitem ▸ mapM_readItem_cons.mp hmembers
              exact absurd hseen (collects_cons.mp hcollects).1
          · rw [ih]
            constructor
            · rintro ⟨rest, hrest, hcollects⟩
              exact ⟨peer :: rest, mapM_readItem_cons.mpr ⟨peer, rest, hitem, hrest, rfl⟩,
                collects_cons.mpr ⟨hseen, hcollects⟩⟩
            · rintro ⟨members, hmembers, hcollects⟩
              obtain ⟨_, rest, ⟨⟩, hrest, rfl⟩ := hitem ▸ mapM_readItem_cons.mp hmembers
              exact ⟨rest, hrest, (collects_cons.mp hcollects).2⟩

/-- Whether a peer list is accepted does not depend on the node; the node only leaves
itself out. -/
theorem parsePeers_eq_ok :
    parsePeers raw selfID = .ok result ↔
      ∃ members, Lists raw members ∧
        result = members.filter fun m => decide (m.id ≠ selfID) := by
  unfold parsePeers
  split_ifs with hblank
  · constructor
    · intro h
      cases h
      exact ⟨[], ⟨fun _ => rfl, fun h => absurd hblank h, List.nodup_nil⟩, rfl⟩
    · rintro ⟨members, hlists, rfl⟩
      rw [hlists.blank hblank]
      rfl
  · rw [parseItems_eq_ok]
    constructor
    · rintro ⟨members, hmembers, hcollects⟩
      exact ⟨members, ⟨fun h => absurd h hblank, fun _ => hmembers, hcollects.nodup⟩,
        hcollects.result⟩
    · rintro ⟨members, hlists, rfl⟩
      exact ⟨members, hlists.items hblank, hlists.nodup, by simp, rfl⟩

theorem Lists.unique
    {members' : List Peer}
    (h : Lists raw members)
    (h' : Lists raw members') :
    members = members' := by
  by_cases hblank : trimSpace raw = []
  · rw [h.blank hblank, h'.blank hblank]
  · exact Option.some.inj ((h.items hblank).symm.trans (h'.items hblank))

/-- A blank list is a single blank entry. -/
theorem itemIDs_blank
    (hblank : trimSpace raw = []) :
    itemIDs raw = [[]] := by
  have hcomma : (44 : UInt8) ∉ raw := by
    intro hmem
    have := mem_trimSpace (by decide) hmem
    rw [hblank] at this
    cases this
  rw [itemIDs, split_of_notMem hcomma, List.map_singleton, hblank]
  rfl

/-- The ids of a list with entries are those of its entries. -/
theorem Lists.mem_ids
    (h : Lists raw members)
    (hblank : trimSpace raw ≠ []) :
    id ∈ itemIDs raw ↔ id ∈ members.map Peer.id := by
  rw [itemIDs, (map_id_of_mapM (h.items hblank)).1]

end Items

section Members

variable {raw a b : Bytes} {members : List Peer}

/-- The node and its peers. -/
def group (selfID : Bytes) (peers : List Peer) : Finset Bytes :=
  insert selfID (peers.map Peer.id).toFinset

theorem mem_ids_filter
    {id : Bytes} :
    id ∈ (members.filter fun m => decide (m.id ≠ a)).map Peer.id ↔
      id ∈ members.map Peer.id ∧ id ≠ a := by
  simp only [List.mem_map, List.mem_filter, decide_eq_true_eq]
  constructor
  · rintro ⟨m, ⟨hm, hne⟩, rfl⟩
    exact ⟨⟨m, hm, rfl⟩, hne⟩
  · rintro ⟨⟨m, hm, rfl⟩, hne⟩
    exact ⟨m, ⟨hm, hne⟩, rfl⟩

/-- A node of the list sees all the members. -/
theorem group_filter
    (ha : a ∈ members.map Peer.id) :
    group a (members.filter fun m => decide (m.id ≠ a)) = (members.map Peer.id).toFinset := by
  ext id
  rw [group, Finset.mem_insert, List.mem_toFinset, mem_ids_filter, List.mem_toFinset]
  constructor
  · rintro (rfl | ⟨hid, -⟩)
    · exact ha
    · exact hid
  · intro hid
    by_cases heq : id = a
    · exact Or.inl heq
    · exact Or.inr ⟨hid, heq⟩

theorem nodup_filter
    (h : (members.map Peer.id).Nodup) :
    ((members.filter fun m => decide (m.id ≠ a)).map Peer.id).Nodup :=
  h.sublist (List.filter_sublist.map _)

theorem card_group
    {peers : List Peer}
    (hnodup : (peers.map Peer.id).Nodup)
    (hself : a ∉ peers.map Peer.id) :
    (group a peers).card = peers.length + 1 := by
  rw [group, Finset.card_insert_of_notMem (by rwa [List.mem_toFinset]),
    List.toFinset_card_of_nodup hnodup, List.length_map]

end Members

/-- Nodes that share a peer list accept it together, and then they agree on the members
of the cluster; the majorities they count have a node in common. -/
theorem shared_peers_quorums
    (raw a b : Bytes)
    (ha : a ∈ itemIDs raw)
    (hb : b ∈ itemIDs raw) :
    ((∃ peers, parsePeers raw a = .ok peers) ↔ ∃ peers, parsePeers raw b = .ok peers) ∧
    ∀ cfgA cfgB : NodeConfig,
      parsePeers raw a = .ok cfgA.peers → parsePeers raw b = .ok cfgB.peers →
      (cfgA.peers.map Peer.id).Nodup ∧ a ∉ cfgA.peers.map Peer.id ∧
      group a cfgA.peers = group b cfgB.peers ∧
      ∀ A B, A ⊆ group a cfgA.peers → B ⊆ group b cfgB.peers →
        Node.majority cfgA.optionsFromConfig ≤ A.card →
        Node.majority cfgB.optionsFromConfig ≤ B.card → (A ∩ B).Nonempty := by
  constructor
  · have haccept : ∀ id, (∃ peers, parsePeers raw id = .ok peers) ↔ ∃ ms, Lists raw ms := by
      intro id
      constructor
      · rintro ⟨peers, h⟩
        obtain ⟨ms, hlists, -⟩ := parsePeers_eq_ok.mp h
        exact ⟨ms, hlists⟩
      · rintro ⟨ms, hlists⟩
        exact ⟨_, parsePeers_eq_ok.mpr ⟨ms, hlists, rfl⟩⟩
    rw [haccept, haccept]
  · intro cfgA cfgB hA hB
    obtain ⟨members, hlists, hpeersA⟩ := parsePeers_eq_ok.mp hA
    obtain ⟨members', hlists', hpeersB⟩ := parsePeers_eq_ok.mp hB
    obtain rfl := hlists.unique hlists'
    have hnodup : ∀ id, ((members.filter fun m => decide (m.id ≠ id)).map Peer.id).Nodup :=
      fun id => nodup_filter hlists.nodup
    have hself : ∀ id, id ∉ (members.filter fun m => decide (m.id ≠ id)).map Peer.id :=
      fun id hid => (mem_ids_filter.mp hid).2 rfl
    have hgroup : group a cfgA.peers = group b cfgB.peers := by
      rw [hpeersA, hpeersB]
      by_cases hblank : trimSpace raw = []
      · rw [itemIDs_blank hblank, List.mem_singleton] at ha hb
        rw [ha, hb]
      · rw [group_filter ((hlists.mem_ids hblank).mp ha),
          group_filter ((hlists.mem_ids hblank).mp hb)]
    have hcardA := card_group (hnodup a) (hself a)
    have hcardB := card_group (hnodup b) (hself b)
    rw [← hpeersA] at hcardA
    rw [← hpeersB, ← hgroup, hcardA] at hcardB
    refine ⟨hpeersA ▸ hnodup a, hpeersA ▸ hself a, hgroup, ?_⟩
    intro A B hAsub hBsub hAcard hBcard
    unfold Node.majority optionsFromConfig at hAcard hBcard
    rw [List.length_map] at hAcard hBcard
    exact Finset.inter_nonempty_of_card_lt_card_add_card hAsub (hgroup ▸ hBsub) (by omega)

/-- A list of three nodes with white space around its second entry. -/
def threeNodes : Bytes :=
  ascii "node1=node1:9001, node2=node2:9001 ,node3=node3:9001"

theorem shared_peers_quorums_threeNodes :
    parsePeers threeNodes (ascii "node1") =
      .ok [⟨ascii "node2", ascii "node2:9001"⟩, ⟨ascii "node3", ascii "node3:9001"⟩] ∧
    ((∃ peers, parsePeers threeNodes (ascii "node1") = .ok peers) ↔
      ∃ peers, parsePeers threeNodes (ascii "node3") = .ok peers) ∧
    ∀ cfgA cfgB : NodeConfig,
      parsePeers threeNodes (ascii "node1") = .ok cfgA.peers →
      parsePeers threeNodes (ascii "node3") = .ok cfgB.peers →
      (cfgA.peers.map Peer.id).Nodup ∧ ascii "node1" ∉ cfgA.peers.map Peer.id ∧
      group (ascii "node1") cfgA.peers = group (ascii "node3") cfgB.peers ∧
      ∀ A B, A ⊆ group (ascii "node1") cfgA.peers → B ⊆ group (ascii "node3") cfgB.peers →
        Node.majority cfgA.optionsFromConfig ≤ A.card →
        Node.majority cfgB.optionsFromConfig ≤ B.card → (A ∩ B).Nonempty :=
  ⟨by decide +kernel,
    shared_peers_quorums threeNodes (ascii "node1") (ascii "node3") (by decide +kernel)
      (by decide +kernel)⟩

section Cluster

variable {raw : Bytes} {members : List Peer}

theorem idText_injective :
    Function.Injective idText := by
  intro id id' h
  have hchar : Function.Injective fun b : UInt8 => Char.ofNat b.toNat := by
    intro b b' hb
    have hnat : ∀ d : UInt8, (Char.ofNat d.toNat).toNat = d.toNat := by
      intro d
      have hd := d.toNat_lt
      have hvalid : d.toNat.isValidChar := Or.inl (by omega)
      rw [Char.ofNat, dif_pos hvalid]
      rfl
    rw [← UInt8.toNat_inj, ← hnat b, ← hnat b']
    exact congrArg Char.toNat hb
  exact List.map_injective_iff.mpr hchar (String.ofList_injective h)

theorem Lists.named
    (h : Lists raw members) :
    ∀ m ∈ members, m.id ≠ [] := by
  by_cases hblank : trimSpace raw = []
  · rw [h.blank hblank]
    simp
  · exact (map_id_of_mapM (h.items hblank)).2

/-- The cluster that an accepted peer list describes. -/
def Lists.cluster (h : Lists raw members) (snapshotThreshold : String → Nat) (json : Json) :
    Config where
  members := members.map fun m => idText m.id
  snapshotThreshold := snapshotThreshold
  json := json
  nodup := by
    have := h.nodup.map idText_injective
    rwa [List.map_map] at this
  named := by
    intro hmem
    obtain ⟨m, hm, hid⟩ := List.mem_map.mp hmem
    exact h.named m hm (idText_injective (hid.trans rfl))

/-- Every node that reads the list runs with the options of that cluster. -/
theorem Lists.optionsFromConfig_eq
    (h : Lists raw members) (snapshotThreshold : String → Nat) (json : Json)
    (cfg : NodeConfig)
    (hpeers : parsePeers raw cfg.nodeID = .ok cfg.peers)
    (hthreshold : snapshotThreshold (idText cfg.nodeID) = cfg.snapshotThreshold) :
    cfg.optionsFromConfig =
      (h.cluster snapshotThreshold json).options (idText cfg.nodeID) := by
  obtain ⟨members', hlists, hresult⟩ := parsePeers_eq_ok.mp hpeers
  obtain rfl := hlists.unique h
  unfold optionsFromConfig Lists.cluster Config.options
  simp only [hthreshold, Options.mk.injEq, and_true, true_and]
  rw [hresult, List.filter_map]
  congr 1
  refine List.filter_congr fun m _ => ?_
  simp [idText_injective.eq_iff]

end Cluster

end NodeConfig

end LogReplicator
