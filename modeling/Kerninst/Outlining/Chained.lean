import Kerninst.Lib.GreedyPaths
import Kerninst.Outlining.BlockOrderingChains

/-!
# Merging keeps the blocks in chains

The chains vector is a table of links. `Chained` says what it represents: a list of blocks
for every chain id, such that each block is on exactly one of them, the links of the
vector run along the lists, and the dictionary of heads knows where each one starts. All
blocks of a chain have the same temperature.

Joining two chains (`Chained.linked`) appends one list to the other and empties it. The
links that the main loop of `merge_chains` makes are the greedy ones: `Merging.next_iff`
and `Merging.prev_iff` say that after a part of the edges, the vector holds exactly the
links that `greedyPaths` accepts from them.
-/

namespace Kerninst

open List Option AList

variable {n : Nat} {hot : Nat → Bool} {f : Nat → ChainVecEntry} {heads : ChainHeads}
  {chain : Nat → List Nat}

/-- **The chains that a chains vector represents.** `chain k` are the blocks of the chain
with id `k`; it is empty if that id is not in use. -/
structure Chained (n : Nat) (hot : Nat → Bool) (f : Nat → ChainVecEntry) (heads : ChainHeads)
    (chain : Nat → List Nat) : Prop where
  lt : ∀ {k b}, b ∈ chain k → b < n
  mem : ∀ {b}, b < n → b ∈ chain (f b).chainId
  chainId : ∀ {k b}, b ∈ chain k → (f b).chainId = k
  head : ∀ k, heads.lookup k = (chain k).head?
  links : ∀ k, Links (fun b => (f b).nextBbidThisChain) (chain k).head? (chain k)
  prev_none : ∀ {b}, b < n →
    ((f b).prevBbidThisChain = none ↔ (chain (f b).chainId).head? = some b)
  hot_eq : ∀ {k a b}, a ∈ chain k → b ∈ chain k → hot a = hot b
  id_lt : ∀ {k}, chain k ≠ [] → k < n

namespace Chained

/-- A chain has no more blocks than the function. -/
theorem length_le (h : Chained n hot f heads chain) (k : Nat) : (chain k).length ≤ n := by
  have hsub : (chain k).Subperm (range n) :=
    (h.links k).nodup.subperm fun b hb => mem_range.mpr (h.lt hb)
  simpa using hsub.length_le

theorem mem_iff (h : Chained n hot f heads chain) {b : Nat} (hb : b < n) (k : Nat) :
    b ∈ chain k ↔ (f b).chainId = k :=
  ⟨h.chainId, fun hk => hk ▸ h.mem hb⟩

theorem mem_heads_iff (h : Chained n hot f heads chain) (k : Nat) :
    k ∈ heads ↔ ∃ b < n, (f b).chainId = k := by
  rw [← lookup_isSome, h.head]
  constructor
  · intro hsome
    obtain ⟨b, hb⟩ := isSome_iff_exists.mp hsome
    have hmem := mem_of_mem_head? hb
    exact ⟨b, h.lt hmem, h.chainId hmem⟩
  · rintro ⟨b, hb, rfl⟩
    exact isSome_head?.mpr (ne_nil_of_mem (h.mem hb))

/-- The last block of a chain is reached from all its blocks, and from no others. -/
theorem path_iff (h : Chained n hot f heads chain) {a b : Nat} (ha : a < n) (hb : b < n)
    (hlast : (f b).nextBbidThisChain = none) :
    Relation.ReflTransGen (fun x y => (f x).nextBbidThisChain = some y) a b ↔
      (f b).chainId = (f a).chainId := by
  refine ⟨fun hp => h.chainId ?_, fun hid => ?_⟩
  · clear hb hlast
    induction hp with
    | refl => exact h.mem ha
    | tail _ hstep ih => exact (h.links _).mem_of_next ih hstep
  have hmem : b ∈ chain (f a).chainId := hid ▸ h.mem hb
  obtain ⟨l, hl⟩ := (h.links _).eq_concat_of_next_none hmem hlast
  have hlinks := h.links (f a).chainId
  have hmema := h.mem ha
  rw [hl] at hlinks hmema
  exact hlinks.path_to_last hmema

end Chained

/-! ## Joining two chains -/

/-- The chains after the chain `k₂` has been appended to `k₁`. -/
def joinChains (chain : Nat → List Nat) (k₁ k₂ k : Nat) : List Nat :=
  if k = k₂ then [] else if k = k₁ then chain k₁ ++ chain k₂ else chain k

theorem mem_joinChains {k₁ k₂ k b : Nat} (hne : k₁ ≠ k₂) :
    b ∈ joinChains chain k₁ k₂ k ↔ k ≠ k₂ ∧ (b ∈ chain k ∨ k = k₁ ∧ b ∈ chain k₂) := by
  unfold joinChains
  by_cases hk₂ : k = k₂
  · simp [hk₂]
  · by_cases hk₁ : k = k₁
    · subst hk₁
      simp
    · simp [hk₁]

theorem head?_joinChains {k₁ k₂ k : Nat} (hk : k ≠ k₂) (hne : chain k₁ ≠ []) :
    (joinChains chain k₁ k₂ k).head? = (chain k).head? := by
  rw [joinChains, if_neg hk]
  by_cases hk₁ : k = k₁
  · subst hk₁
    rw [if_pos rfl, head?_append_of_ne_nil _ hne]
  · rw [if_neg hk₁]

/-- The entry of a block after `p` has been linked to `q`. -/
def linkEntry (f : Nat → ChainVecEntry) (p q b : Nat) : ChainVecEntry where
  chainId := if (f b).chainId = (f q).chainId then (f p).chainId else (f b).chainId
  nextBbidThisChain := Function.update (fun b => (f b).nextBbidThisChain) p (some q) b
  prevBbidThisChain := Function.update (fun b => (f b).prevBbidThisChain) q (some p) b

theorem linkEntry_next_of_ne {p q b : Nat} (hb : b ≠ p) :
    (linkEntry f p q b).nextBbidThisChain = (f b).nextBbidThisChain := by
  simp [linkEntry, hb]

/-- **Joining two chains** keeps the blocks in chains. -/
theorem Chained.linked (h : Chained n hot f heads chain) {p q : Nat} (hp : p < n) (hq : q < n)
    (hne : (f p).chainId ≠ (f q).chainId) (hnext : (f p).nextBbidThisChain = none)
    (hprev : (f q).prevBbidThisChain = none) (hhot : hot p = hot q) :
    Chained n hot (linkEntry f p q) (heads.erase (f q).chainId)
      (joinChains chain (f p).chainId (f q).chainId) := by
  have hmemp := h.mem hp
  have hnil : chain (f p).chainId ≠ [] := ne_nil_of_mem hmemp
  have hhead : (chain (f q).chainId).head? = some q := (h.prev_none hq).mp hprev
  have hpq : p ∉ chain (f q).chainId := fun hmem => hne (h.chainId hmem)
  have hidp : ∀ {b k}, b ∈ joinChains chain (f p).chainId (f q).chainId k →
      (linkEntry f p q b).chainId = k := by
    intro b k hb
    obtain ⟨hk, hold | ⟨rfl, hmoved⟩⟩ := (mem_joinChains hne).mp hb
    · simp [linkEntry, h.chainId hold, if_neg hk]
    · simp [linkEntry, h.chainId hmoved]
  refine ⟨?lt, ?mem, hidp, ?head, ?links, ?prev, ?hot, ?id⟩
  case lt =>
    intro k b hb
    obtain ⟨-, hb | ⟨-, hb⟩⟩ := (mem_joinChains hne).mp hb
    · exact h.lt hb
    · exact h.lt hb
  case mem =>
    intro b hb
    refine (mem_joinChains hne).mpr ?_
    by_cases hbq : (f b).chainId = (f q).chainId
    · simp only [linkEntry, hbq, if_true]
      exact ⟨hne, .inr ⟨trivial, hbq ▸ h.mem hb⟩⟩
    · simp only [linkEntry, hbq, if_false]
      exact ⟨hbq, .inl (h.mem hb)⟩
  case head =>
    intro k
    by_cases hk : k = (f q).chainId
    · rw [hk, lookup_erase, joinChains, if_pos rfl]
      rfl
    · rw [lookup_erase_ne hk, h.head, head?_joinChains hk hnil]
  case links =>
    intro k
    by_cases hk : k = (f q).chainId
    · rw [joinChains, if_pos hk]
      rfl
    rw [head?_joinChains hk hnil, joinChains, if_neg hk]
    by_cases hkp : k = (f p).chainId
    · -- the last block of the first chain gets the head of the second one as its next
      rw [if_pos hkp, hkp]
      obtain ⟨l, hl⟩ := (h.links _).eq_concat_of_next_none hmemp hnext
      have hfirst := h.links (f p).chainId
      have hsecond := h.links (f q).chainId
      rw [hhead] at hsecond
      generalize (chain (f p).chainId).head? = start at hfirst ⊢
      rw [hl] at hfirst ⊢
      exact hfirst.append hsecond hpq
    · rw [if_neg hkp]
      refine (h.links k).congr fun b hb => linkEntry_next_of_ne ?_
      rintro rfl
      exact hkp (h.chainId hb).symm
  case prev =>
    intro b hb
    by_cases hbq : b = q
    · subst hbq
      have hlk : (linkEntry f p b b).chainId = (f p).chainId := by
        simp [linkEntry]
      rw [hlk, head?_joinChains hne hnil]
      refine ⟨fun hnone => absurd hnone (by simp [linkEntry]), fun hh => ?_⟩
      exact absurd (h.chainId (mem_of_mem_head? hh)) (Ne.symm hne)
    · have hprev : (linkEntry f p q b).prevBbidThisChain = (f b).prevBbidThisChain := by
        simp [linkEntry, hbq]
      rw [hprev, h.prev_none hb]
      by_cases hid : (f b).chainId = (f q).chainId
      · have hlk : (linkEntry f p q b).chainId = (f p).chainId := by
          simp [linkEntry, hid]
        rw [hlk, head?_joinChains hne hnil, hid, hhead]
        refine ⟨fun hq' => absurd (some.inj hq').symm hbq, fun hh => ?_⟩
        exact absurd ((h.chainId (mem_of_mem_head? hh)).symm.trans hid) hne
      · have hlk : (linkEntry f p q b).chainId = (f b).chainId := by
          simp [linkEntry, hid]
        rw [hlk, head?_joinChains hid hnil]
  case hot =>
    have hto : ∀ {k a}, a ∈ joinChains chain (f p).chainId (f q).chainId k →
        (k = (f p).chainId ∧ hot a = hot p) ∨ (k ≠ (f p).chainId ∧ a ∈ chain k) := by
      intro k a ha
      obtain ⟨-, hold | ⟨rfl, hmoved⟩⟩ := (mem_joinChains hne).mp ha
      · by_cases hk : k = (f p).chainId
        · exact .inl ⟨hk, h.hot_eq (hk ▸ hold) hmemp⟩
        · exact .inr ⟨hk, hold⟩
      · exact .inl ⟨rfl, (h.hot_eq hmoved (h.mem hq)).trans hhot.symm⟩
    intro k a b ha hb
    rcases hto ha with ⟨hk, ha⟩ | ⟨hk, ha⟩
    · rcases hto hb with ⟨-, hb⟩ | ⟨hk', -⟩
      · exact ha.trans hb.symm
      · exact absurd hk hk'
    · rcases hto hb with ⟨hk', -⟩ | ⟨-, hb⟩
      · exact absurd hk' hk
      · exact h.hot_eq ha hb
  case id =>
    intro k hk
    by_cases hkq : k = (f q).chainId
    · exact absurd (by rw [joinChains, if_pos hkq]) hk
    · obtain ⟨b, hb⟩ := exists_mem_of_ne_nil _ hk
      obtain ⟨-, hb | ⟨rfl, -⟩⟩ := (mem_joinChains hne).mp hb
      · exact h.id_lt (ne_nil_of_mem hb)
      · exact h.id_lt hnil

/-! ## The main loop -/

/-- The two writes to the ends of an edge. -/
theorem update_ends (f : Nat → ChainVecEntry) {p q : Nat} (hpq : p ≠ q) :
    Function.update (Function.update f p { f p with nextBbidThisChain := some q }) q
        { f q with prevBbidThisChain := some p } =
      fun b => { linkEntry f p q b with chainId := (f b).chainId } := by
  funext b
  by_cases hbq : b = q
  · subst hbq
    simp [linkEntry, hpq.symm]
  · by_cases hbp : b = p
    · subst hbp
      simp [linkEntry, hpq]
    · simp [linkEntry, hbq, hbp]

/-- **Relabelling** walks the obsolete chain and gives each of its blocks the new id. -/
theorem walk_relabel (h : Chained n hot f heads chain) {p q : Nat} (hq : q < n)
    (hne : (f p).chainId ≠ (f q).chainId) (hprev : (f q).prevBbidThisChain = none) :
    walk (relabel (f q).chainId (f p).chainId) (n + 1)
        (table n fun b => { linkEntry f p q b with chainId := (f b).chainId }) (some q) =
      some (table n (linkEntry f p q)) := by
  have hlinks : Links (fun b => (linkEntry f p q b).nextBbidThisChain) (some q)
      (chain (f q).chainId) := by
    rw [← (h.prev_none hq).mp hprev]
    refine (h.links _).congr fun b hb => linkEntry_next_of_ne ?_
    rintro rfl
    exact hne (h.chainId hb)
  have hwalk : ∃ vec, walk (relabel (f q).chainId (f p).chainId) (n + 1)
      (table n fun b => { linkEntry f p q b with chainId := (f b).chainId }) (some q) = some vec ∧
      vec = table n fun b => { linkEntry f p q b with
        chainId := if b ∈ chain (f q).chainId then (f p).chainId else (f b).chainId } := by
    refine walk_total (I := fun pre vec => vec = table n fun b => { linkEntry f p q b with
        chainId := if b ∈ pre then (f p).chainId else (f b).chainId })
      hlinks (Nat.lt_succ_of_le (h.length_le _)) ?_ ?_
    · simp
    rintro pre a post vec hsplit rfl
    have hmem : a ∈ chain (f q).chainId := by rw [hsplit]; simp
    have ha : a ∉ pre := by
      have hnodup := (h.links (f q).chainId).nodup
      rw [hsplit] at hnodup
      exact fun hpre => (nodup_append.mp hnodup).2.2 a hpre a (by simp) rfl
    refine ⟨_, ?_, rfl⟩
    rw [relabel, getElem?_table (h.lt hmem), bind_eq_bind, bind_some,
      check_pos (by simp [ha, h.chainId hmem])]
    simp only [set_table, run_do]
    refine congrArg (fun g => some (table n g, _)) (funext fun b => ?_)
    by_cases hba : b = a
    · subst hba
      simp
    · simp [hba]
  obtain ⟨vec, hwalk, rfl⟩ := hwalk
  refine hwalk.trans (congrArg some (table_congr fun b hb => ?_))
  have hiff := h.mem_iff hb (f q).chainId
  by_cases hbq : (f b).chainId = (f q).chainId
  · simp [linkEntry, hbq, hiff.mpr hbq]
  · simp [linkEntry, hbq, mt hiff.mp hbq]

/-- The links that are accepted, of the edges looked at so far. -/
noncomputable abbrev acceptedLinks (hot : Nat → Bool) (edges : List EdgeEntry) : List (Nat × Nat) :=
  greedyPaths (fun a b => hot a = hot b) (edges.map EdgeEntry.ends)

/-- **The state of the main loop** after the edges `edges`. -/
structure Merging (n : Nat) (hot : Nat → Bool) (edges : List EdgeEntry)
    (f : Nat → ChainVecEntry) (chain : Nat → List Nat) (s : MergeState) : Prop where
  vec : s.theChainsVec = table n f
  chained : Chained n hot f s.chainId2HeadOfChain chain
  gone_nodup : s.chainIdsThatNoLongerExist.Nodup
  mem_gone : ∀ k, k ∈ s.chainIdsThatNoLongerExist ↔ k < n ∧ chain k = []
  inter_sublist : s.interChainEdges.Sublist edges
  inter_hot : ∀ e ∈ s.interChainEdges, hot e.fromBbid = hot e.toBbid
  next_iff : ∀ a b, (f a).nextBbidThisChain = some b ↔ (a, b) ∈ acceptedLinks hot edges
  prev_iff : ∀ a b, (f b).prevBbidThisChain = some a ↔ (a, b) ∈ acceptedLinks hot edges

variable {edges : List EdgeEntry} {s : MergeState} {e : EdgeEntry}

theorem Merging.getElem? (h : Merging n hot edges f chain s) {b : Nat} (hb : b < n) :
    s.theChainsVec[b]? = some (f b) := by
  rw [h.vec, getElem?_table hb]

/-- The test of the source is the greedy one: an edge out of a last block leads back into
the same chain exactly if it would close a cycle. -/
theorem Merging.joins_iff (h : Merging n hot edges f chain s) (hfrom : e.fromBbid < n)
    (hto : e.toBbid < n) :
    Joins (fun a b => hot a = hot b) (acceptedLinks hot edges) e.ends ↔
      (f e.fromBbid).chainId ≠ (f e.toBbid).chainId ∧
      (f e.fromBbid).nextBbidThisChain = none ∧ (f e.toBbid).prevBbidThisChain = none ∧
      hot e.fromBbid = hot e.toBbid := by
  have hpath : Path (acceptedLinks hot edges) =
      Relation.ReflTransGen fun x y => (f x).nextBbidThisChain = some y := by
    refine congrArg Relation.ReflTransGen (funext fun a => funext fun b => ?_)
    exact propext (h.next_iff a b).symm
  have hsource : (∀ b, (e.fromBbid, b) ∉ acceptedLinks hot edges) ↔
      (f e.fromBbid).nextBbidThisChain = none := by
    rw [eq_none_iff_forall_ne_some]
    exact forall_congr' fun b => not_congr (h.next_iff _ b).symm
  have htarget : (∀ a, (a, e.toBbid) ∉ acceptedLinks hot edges) ↔
      (f e.toBbid).prevBbidThisChain = none := by
    rw [eq_none_iff_forall_ne_some]
    exact forall_congr' fun a => not_congr (h.prev_iff a _).symm
  constructor
  · rintro ⟨hhot, hs, ht, hcycle⟩
    have hnext := hsource.mp hs
    rw [hpath] at hcycle
    exact ⟨fun hid => hcycle ((h.chained.path_iff hto hfrom hnext).mpr hid), hnext,
      htarget.mp ht, hhot⟩
  · rintro ⟨hid, hnext, hprev, hhot⟩
    refine ⟨hhot, hsource.mpr hnext, htarget.mpr hprev, fun hp => hid ?_⟩
    rw [hpath] at hp
    exact (h.chained.path_iff hto hfrom hnext).mp hp

theorem acceptedLinks_concat_of_joins
    (hj : Joins (fun a b => hot a = hot b) (acceptedLinks hot edges) e.ends) :
    acceptedLinks hot (edges ++ [e]) = acceptedLinks hot edges ++ [e.ends] := by
  rw [acceptedLinks, map_append, map_singleton, greedyPaths_concat, greedyStep_of_joins hj]

theorem acceptedLinks_concat_of_not_joins
    (hj : ¬ Joins (fun a b => hot a = hot b) (acceptedLinks hot edges) e.ends) :
    acceptedLinks hot (edges ++ [e]) = acceptedLinks hot edges := by
  rw [acceptedLinks, map_append, map_singleton, greedyPaths_concat, greedyStep_of_not_joins hj]

/-- An edge that joins two chains. -/
theorem Merging.link (h : Merging n hot edges f chain s) (hfrom : e.fromBbid < n)
    (hto : e.toBbid < n) (hj : Joins (fun a b => hot a = hot b) (acceptedLinks hot edges) e.ends) :
    ∃ s', s.link e (f e.fromBbid) (f e.toBbid) = some s' ∧
      Merging n hot (edges ++ [e]) (linkEntry f e.fromBbid e.toBbid)
        (joinChains chain (f e.fromBbid).chainId (f e.toBbid).chainId) s' := by
  obtain ⟨hid, hnext, hprev, hhot⟩ := (h.joins_iff hfrom hto).mp hj
  have hpq : e.fromBbid ≠ e.toBbid := fun heq => hid (by rw [heq])
  have hhead : s.chainId2HeadOfChain.lookup (f e.toBbid).chainId = some e.toBbid := by
    rw [h.chained.head]
    exact (h.chained.prev_none hto).mp hprev
  refine ⟨{ s with
    theChainsVec := table n (linkEntry f e.fromBbid e.toBbid)
    chainId2HeadOfChain := s.chainId2HeadOfChain.erase (f e.toBbid).chainId
    chainIdsThatNoLongerExist := s.chainIdsThatNoLongerExist ++ [(f e.toBbid).chainId] }, ?_,
    ⟨rfl, h.chained.linked hfrom hto hid hnext hprev hhot, ?_, fun k => ?_,
    h.inter_sublist.trans (sublist_append_left ..), h.inter_hot, fun a b => ?_,
    fun a b => ?_⟩⟩
  · simp [MergeState.link, check_pos hnext, check_pos hprev, check_pos hid.symm, hhead, h.vec,
      set_table, update_ends f hpq, walk_relabel h.chained hto hid hprev]
  · refine nodup_append.mpr ⟨h.gone_nodup, nodup_singleton _, ?_⟩
    rintro k hk _ hk' rfl
    obtain rfl := mem_singleton.mp hk'
    exact absurd ((h.mem_gone _).mp hk).2 (ne_nil_of_mem (h.chained.mem hto))
  · have hlt : (f e.toBbid).chainId < n :=
      h.chained.id_lt (ne_nil_of_mem (h.chained.mem hto))
    rw [mem_append, mem_singleton, h.mem_gone, joinChains]
    by_cases hk : k = (f e.toBbid).chainId
    · simp [hk, hlt]
    · by_cases hk₁ : k = (f e.fromBbid).chainId
      · have hne := ne_nil_of_mem (h.chained.mem hfrom)
        simp [hid, hk₁, hne]
      · simp [hk, hk₁]
  · rw [acceptedLinks_concat_of_joins hj, mem_append, mem_singleton, EdgeEntry.ends,
      Prod.mk.injEq, ← h.next_iff]
    by_cases ha : a = e.fromBbid
    · subst ha
      simp [linkEntry, hnext, eq_comm]
    · simp [linkEntry, ha]
  · rw [acceptedLinks_concat_of_joins hj, mem_append, mem_singleton, EdgeEntry.ends,
      Prod.mk.injEq, ← h.prev_iff]
    by_cases hb : b = e.toBbid
    · subst hb
      simp [linkEntry, hprev, eq_comm]
    · simp [linkEntry, hb]

/-- An edge that joins nothing: the chains stay, and it may become an inter-chain edge. -/
theorem Merging.skip (h : Merging n hot edges f chain s) {inter : List EdgeEntry}
    (hj : ¬ Joins (fun a b => hot a = hot b) (acceptedLinks hot edges) e.ends)
    (hinter : inter.Sublist (edges ++ [e])) (hhot : ∀ e ∈ inter, hot e.fromBbid = hot e.toBbid) :
    Merging n hot (edges ++ [e]) f chain { s with interChainEdges := inter } where
  vec := h.vec
  chained := h.chained
  gone_nodup := h.gone_nodup
  mem_gone := h.mem_gone
  inter_sublist := hinter
  inter_hot := hhot
  next_iff := by rw [acceptedLinks_concat_of_not_joins hj]; exact h.next_iff
  prev_iff := by rw [acceptedLinks_concat_of_not_joins hj]; exact h.prev_iff

/-- **One round of the main loop.** -/
theorem Merging.mergeEdge {o : HotBlockCalcOracle}
    (h : Merging n o.isBlockInlined edges f chain s) (hfrom : e.fromBbid < n) (hto : e.toBbid < n) :
    ∃ s', s.mergeEdge o e = some s' ∧
      ∃ f' chain', Merging n o.isBlockInlined (edges ++ [e]) f' chain' s' := by
  simp only [MergeState.mergeEdge, h.getElem? hfrom, h.getElem? hto, run_do]
  split
  · rename_i htest
    obtain ⟨s', hs', hm⟩ := h.link hfrom hto ((h.joins_iff hfrom hto).mpr htest)
    exact ⟨s', hs', _, _, hm⟩
  · rename_i htest
    have hj := mt (h.joins_iff hfrom hto).mp htest
    split
    · rename_i hinter
      refine ⟨_, rfl, f, chain, h.skip hj (h.inter_sublist.append (Sublist.refl _)) ?_⟩
      intro e' he'
      rcases mem_append.mp he' with hold | hnew
      · exact h.inter_hot e' hold
      · rw [mem_singleton.mp hnew]
        exact hinter.2
    · exact ⟨s, rfl, f, chain,
        h.skip hj (h.inter_sublist.trans (sublist_append_left ..)) h.inter_hot⟩

/-- The dictionary of heads before the loop. -/
theorem initHeads (n : Nat) :
    ∃ heads, (List.range n).foldlM (initHead (initialChainsVec n)) ∅ = some heads ∧
      ∀ k, heads.lookup k = if k ∈ List.range n then some k else none := by
  refine foldlM_total (I := fun pre heads => ∀ k, AList.lookup k heads =
    if k ∈ pre then some k else none) (range n) (fun k => by simp) ?_
  intro pre b post heads hsplit hinv
  have hb : b < n := mem_range.mp (by rw [hsplit]; simp)
  have hpre : b ∉ pre := by
    have hnodup := nodup_range (n := n)
    rw [hsplit] at hnodup
    exact fun hmem => (nodup_append.mp hnodup).2.2 b hmem b (by simp) rfl
  have hnew : b ∉ heads := by
    rw [← AList.lookup_eq_none, hinv, if_neg hpre]
  refine ⟨heads.insert b b, ?_, fun k => ?_⟩
  · simp [initHead, initialChainsVec, getElem?_table hb, check, hnew]
  · by_cases hk : k = b
    · subst hk
      simp
    · rw [AList.lookup_insert_ne hk, hinv]
      simp [hk]

/-- Before the loop, every block is a chain of its own. -/
theorem Merging.initial (hot : Nat → Bool) (hheads : ∀ k, heads.lookup k =
    if k ∈ List.range n then some k else none) :
    Merging n hot [] (fun b => ⟨b, none, none⟩) (fun k => if k < n then [k] else [])
      ⟨initialChainsVec n, heads, [], []⟩ where
  vec := rfl
  chained := {
    lt := by
      intro k b hb
      split at hb
      · rename_i hk
        rwa [mem_singleton.mp hb]
      · exact absurd hb (by simp)
    mem := fun hb => by simp [hb]
    chainId := by
      intro k b hb
      split at hb
      · exact mem_singleton.mp hb
      · exact absurd hb (by simp)
    head := fun k => by
      rw [hheads]
      by_cases hk : k < n
      · simp [hk]
      · simp [hk]
    links := fun k => by
      by_cases hk : k < n
      · simp [hk]
      · simp [hk]
    prev_none := fun hb => by simp [hb]
    hot_eq := by
      intro k a b ha hb
      split at ha
      · rename_i hk
        rw [if_pos hk] at hb
        rw [mem_singleton.mp ha, mem_singleton.mp hb]
      · exact absurd ha (by simp)
    id_lt := by
      intro k hk
      by_contra hlt
      exact hk (if_neg hlt) }
  gone_nodup := nodup_nil
  mem_gone := fun k => by
    by_cases hk : k < n
    · simp
    · simp
  inter_sublist := Sublist.refl _
  inter_hot := fun e he => absurd he (by simp)
  next_iff := fun a b => by simp [acceptedLinks]
  prev_iff := fun a b => by simp [acceptedLinks]

/-- **The main loop** succeeds on edges between blocks of the function. -/
theorem Merging.run {o : HotBlockCalcOracle} {s₀ : MergeState} {f₀ : Nat → ChainVecEntry}
    {chain₀ : Nat → List Nat} (h₀ : Merging n o.isBlockInlined [] f₀ chain₀ s₀)
    (hedges : ∀ e ∈ edges, e.fromBbid < n ∧ e.toBbid < n) :
    ∃ s, edges.foldlM (MergeState.mergeEdge o) s₀ = some s ∧
      ∃ f chain, Merging n o.isBlockInlined edges f chain s := by
  refine foldlM_total (I := fun pre s => ∃ f chain, Merging n o.isBlockInlined pre f chain s)
    edges ⟨f₀, chain₀, h₀⟩ ?_
  rintro pre e post s hsplit ⟨f, chain, h⟩
  obtain ⟨hfrom, hto⟩ := hedges e (by rw [hsplit]; simp)
  exact h.mergeEdge hfrom hto

end Kerninst
