import BloomServer.FilterMap

/-! What a dump of the table holds and what a load makes of it. The text archive is
taken to give back every field that the two `serialize` functions pass to it. -/
namespace BloomServer
open LinkedChain

/-- What `bloom_t::serialize` passes on. The field `bytes` is not among it. -/
structure SavedNode where
  hashNext : Option Addr
  key : CString
  n : UInt64
  m : UInt64
  getCount : UInt64
  setCount : UInt64
  getMissCount : UInt64
  e : Float
  e2 : Float
  k : Int32
  vHash : Option (List Word)

/-- What `blooms_t::serialize` passes on, with the nodes its pointers lead to. -/
structure Archive where
  bytes : UInt64
  maxBytes : UInt64
  count : Int32
  power : Nat
  getCount : UInt64
  setCount : UInt64
  getMissCount : UInt64
  hashtable : Fin bloomsLen → Option Addr
  nodes : List (Addr × SavedNode)

def Node.saved (nd : Node) : SavedNode where
  hashNext := nd.hashNext
  key := nd.bloom.key
  n := nd.bloom.n
  m := nd.bloom.m
  getCount := nd.bloom.getCount
  setCount := nd.bloom.setCount
  getMissCount := nd.bloom.getMissCount
  e := nd.bloom.e
  e2 := nd.bloom.e2
  k := nd.bloom.k
  vHash := nd.bloom.vHash

/-- A new node filled from the archive; `bytes` is whatever its memory held. -/
def SavedNode.restored (s : SavedNode) (bytes : UInt64) (place : Addr → Addr) : Node where
  hashNext := s.hashNext.map place
  bloom :=
    { bytes := bytes, key := s.key, n := s.n, m := s.m, getCount := s.getCount
      setCount := s.setCount, getMissCount := s.getMissCount, e := s.e, e2 := s.e2, k := s.k
      vHash := s.vHash }

/-- The nodes met from a chain head. In a table no node is met twice, so the tracking of
shared pointers never cuts the walk short. -/
def serializeChain (heap : List Node) : Nat → Option Addr → List (Addr × SavedNode)
  | 0, _ | _, none => []
  | fuel + 1, some p =>
      match heap[p]? with
      | none => []
      | some nd => (p, nd.saved) :: serializeChain heap fuel nd.hashNext

/-- The nodes met from all entries of the hash table. -/
@[irreducible] def Store.serializeNodes (σ : Store) : List (Addr × SavedNode) :=
  (List.range bloomsLen).flatMap fun hv =>
    serializeChain σ.heap σ.heap.length (σ.blooms.hashtable hv)

/-- `oa << blooms`. -/
def Store.serialize (σ : Store) : Archive where
  bytes := σ.blooms.bytes
  maxBytes := σ.blooms.maxBytes
  count := σ.blooms.count
  power := σ.blooms.power
  getCount := σ.blooms.getCount
  setCount := σ.blooms.setCount
  getMissCount := σ.blooms.getMissCount
  hashtable hv := σ.blooms.hashtable hv
  nodes := σ.serializeNodes

/-- The new address of a node of the archive, after the `old` nodes allocated before. -/
def Archive.place (A : Archive) (old : Nat) (p : Addr) : Addr :=
  old + (A.nodes.map Prod.fst).idxOf p

/-- `ia >> blooms`, where `heap` is allocated already and `junk i` is what the memory of the
`i`-th new node holds for `bytes`. -/
def Archive.load (A : Archive) (heap : List Node) (junk : Nat → UInt64) : Store where
  heap := heap ++ A.nodes.mapIdx fun i nd => nd.2.restored (junk i) (A.place heap.length)
  blooms :=
    { bytes := A.bytes, maxBytes := A.maxBytes, count := A.count, power := A.power
      getCount := A.getCount, setCount := A.setCount, getMissCount := A.getMissCount
      hashtable := fun hv =>
        if h : hv < bloomsLen then (A.hashtable ⟨hv, h⟩).map (A.place heap.length) else none }

/-- A filter without the field a dump leaves out. -/
def Bloom.dumped (b : Bloom) : Bloom := { b with bytes := 0 }

theorem Store.serialize_nodes (σ : Store) : σ.serialize.nodes = σ.serializeNodes := rfl

theorem Store.mem_serialize_nodes {σ : Store} {x : Addr × SavedNode} : x ∈ σ.serialize.nodes ↔
    ∃ hv < bloomsLen, x ∈ serializeChain σ.heap σ.heap.length (σ.blooms.hashtable hv) := by
  rw [Store.serialize_nodes]
  unfold Store.serializeNodes
  rw [List.mem_flatMap]
  constructor
  · rintro ⟨hv, low, mem⟩
    exact ⟨hv, List.mem_range.mp low, mem⟩
  · rintro ⟨hv, low, mem⟩
    exact ⟨hv, List.mem_range.mpr low, mem⟩

theorem serializeChain_spec {σ : Store} {head : Option Addr} {l : List Addr} {fuel : Nat}
    (chain : Chain σ.link head l) (enough : l.length ≤ fuel) :
    (serializeChain σ.heap fuel head).map Prod.fst = l ∧
    ∀ x ∈ serializeChain σ.heap fuel head, ∃ nd, σ.heap[x.1]? = some nd ∧ x.2 = nd.saved := by
  induction chain generalizing fuel with
  | nil =>
      have none : serializeChain σ.heap fuel none = [] := by cases fuel <;> rfl
      rw [none]
      exact ⟨rfl, fun x mem => nomatch mem⟩
  | @cons p q l link _ ih =>
      cases fuel with
      | zero => simp only [List.length_cons] at enough; omega
      | succ fuel =>
          obtain ⟨nd, read, next⟩ := Option.map_eq_some_iff.mp link
          have fewer : l.length ≤ fuel := by
            simpa only [List.length_cons, Nat.add_le_add_iff_right] using enough
          obtain ⟨keys, nodes⟩ := ih fewer
          have step : serializeChain σ.heap (fuel + 1) (some p) =
              (p, nd.saved) :: serializeChain σ.heap fuel q := by
            simp only [serializeChain, read, next]
          rw [step]
          constructor
          · rw [List.map_cons, keys]
          · intro x mem
            rcases List.mem_cons.mp mem with rfl | later
            · exact ⟨nd, read, rfl⟩
            · exact nodes x later

/-- A node of the archive is restored at its new address. -/
theorem Archive.load_heap (A : Archive) (heap : List Node) (junk : Nat → UInt64) {p : Addr}
    (mem : p ∈ A.nodes.map Prod.fst) :
    ∃ s, (p, s) ∈ A.nodes ∧ (A.load heap junk).heap[A.place heap.length p]? =
      some (s.restored (junk ((A.nodes.map Prod.fst).idxOf p)) (A.place heap.length)) := by
  have inside := List.idxOf_lt_length_of_mem mem
  have here := List.getElem_idxOf inside
  rw [List.length_map] at inside
  rw [List.getElem_map] at here
  refine ⟨A.nodes[(A.nodes.map Prod.fst).idxOf p].2, ?_, ?_⟩
  · have there := List.getElem_mem inside
    rwa [← Prod.eta A.nodes[(A.nodes.map Prod.fst).idxOf p], here] at there
  · unfold Archive.load Archive.place
    dsimp only
    rw [List.getElem?_append_right (Nat.le_add_right _ _), Nat.add_sub_cancel_left,
      List.getElem?_mapIdx, List.getElem?_eq_getElem inside, Option.map_some]

namespace Represents

variable {σ : Store} {B : Buckets} {p q : Addr}

theorem lt_bloomsLen (rep : Represents σ B) {hv : Nat} (mem : p ∈ B hv) : hv < bloomsLen := by
  obtain ⟨b, _, place⟩ := rep.placed hv p mem
  exact place ▸ bucketOf_lt b.key

theorem mem_serialize (rep : Represents σ B) :
    p ∈ σ.serialize.nodes.map Prod.fst ↔ σ.Linked p := by
  have keys (hv : Nat) := (serializeChain_spec (rep.chain hv) (rep.length_le hv)).1
  rw [rep.linked_iff, List.mem_map]
  constructor
  · rintro ⟨x, mem, rfl⟩
    obtain ⟨hv, _, mem⟩ := Store.mem_serialize_nodes.mp mem
    exact ⟨hv, keys hv ▸ List.mem_map_of_mem mem⟩
  · rintro ⟨hv, mem⟩
    obtain ⟨x, there, same⟩ := List.mem_map.mp ((keys hv).symm ▸ mem)
    exact ⟨x, Store.mem_serialize_nodes.mpr ⟨hv, rep.lt_bloomsLen mem, there⟩, same⟩

theorem serialize_saved (rep : Represents σ B) {x : Addr × SavedNode}
    (mem : x ∈ σ.serialize.nodes) : ∃ nd, σ.heap[x.1]? = some nd ∧ x.2 = nd.saved := by
  obtain ⟨hv, _, mem⟩ := Store.mem_serialize_nodes.mp mem
  exact (serializeChain_spec (rep.chain hv) (rep.length_le hv)).2 x mem

variable (heap : List Node) (junk : Nat → UInt64)

/-- A node of the table is restored with its link. -/
theorem load_node (rep : Represents σ B) (linked : σ.Linked p) {nd : Node}
    (read : σ.heap[p]? = some nd) :
    (σ.serialize.load heap junk).heap[σ.serialize.place heap.length p]? =
      some (nd.saved.restored (junk ((σ.serialize.nodes.map Prod.fst).idxOf p))
        (σ.serialize.place heap.length)) := by
  obtain ⟨s, mem, restored⟩ := σ.serialize.load_heap heap junk (rep.mem_serialize.mpr linked)
  obtain ⟨nd', read', saved⟩ := rep.serialize_saved mem
  have same : nd = nd' := Option.some.inj (read.symm.trans read')
  have fields : s = nd.saved := by rw [same]; exact saved
  rw [restored, fields]

/-- Nodes of the table get different new addresses. -/
theorem place_inj (rep : Represents σ B) (linked : σ.Linked p)
    (same : σ.serialize.place heap.length p = σ.serialize.place heap.length q) : p = q :=
  (List.idxOf_inj (rep.mem_serialize.mpr linked)).mp (Nat.add_left_cancel same)

/-- What becomes of the filter of a node. -/
theorem load_bloomAt (rep : Represents σ B) (linked : σ.Linked p) {b : Bloom}
    (read : σ.bloomAt p = some b) :
    (σ.serialize.load heap junk).bloomAt (σ.serialize.place heap.length p) =
      some { b with bytes := junk ((σ.serialize.nodes.map Prod.fst).idxOf p) } := by
  obtain ⟨nd, there, rfl⟩ := Option.map_eq_some_iff.mp read
  rw [Store.bloomAt, rep.load_node heap junk linked there]
  rfl

/-- The loaded store is a table, chain by chain the image of the dumped one. -/
theorem load_represents (rep : Represents σ B) :
    Represents (σ.serialize.load heap junk)
      (fun hv => (B hv).map (σ.serialize.place heap.length)) where
  power := rep.power
  chain hv := by
    have moved : ∀ p ∈ B hv, ∀ r, σ.link p = some r →
        (σ.serialize.load heap junk).link (σ.serialize.place heap.length p) =
          some (r.map (σ.serialize.place heap.length)) := by
      intro p mem r link
      obtain ⟨nd, there, rfl⟩ := Option.map_eq_some_iff.mp link
      rw [Store.link, rep.load_node heap junk (rep.linked_iff.mpr ⟨hv, mem⟩) there]
      rfl
    have chain := (rep.chain hv).map _ moved
    by_cases inside : hv < bloomsLen
    · have head : (σ.serialize.load heap junk).blooms.hashtable hv =
          (σ.blooms.hashtable hv).map (σ.serialize.place heap.length) := dif_pos inside
      rw [head]
      exact chain
    · have head : (σ.serialize.load heap junk).blooms.hashtable hv = none := dif_neg inside
      have empty : B hv = [] :=
        List.eq_nil_iff_forall_not_mem.mpr fun p mem => inside (rep.lt_bloomsLen mem)
      rw [head, empty]
      exact .nil
  placed hv := by
    intro q mem
    obtain ⟨p, old, rfl⟩ := List.mem_map.mp mem
    obtain ⟨b, read, place⟩ := rep.placed hv p old
    exact ⟨_, rep.load_bloomAt heap junk (rep.linked_iff.mpr ⟨hv, old⟩) read, place⟩
  live hv := by
    intro q mem c readc
    obtain ⟨p, old, rfl⟩ := List.mem_map.mp mem
    obtain ⟨b, read, _⟩ := rep.placed hv p old
    rw [rep.load_bloomAt heap junk (rep.linked_iff.mpr ⟨hv, old⟩) read, Option.some.injEq] at readc
    subst readc
    exact rep.live hv p old b read
  distinct hv := by
    intro p' memp q' memq b' c' readb readc same
    obtain ⟨p, oldp, rfl⟩ := List.mem_map.mp memp
    obtain ⟨q, oldq, rfl⟩ := List.mem_map.mp memq
    obtain ⟨b, readp, _⟩ := rep.placed hv p oldp
    obtain ⟨c, readq, _⟩ := rep.placed hv q oldq
    rw [rep.load_bloomAt heap junk (rep.linked_iff.mpr ⟨hv, oldp⟩) readp, Option.some.injEq] at readb
    rw [rep.load_bloomAt heap junk (rep.linked_iff.mpr ⟨hv, oldq⟩) readq, Option.some.injEq] at readc
    subst readb readc
    exact congrArg _ (rep.distinct hv p oldp q oldq b c readp readq same)

theorem linked_load (rep : Represents σ B) :
    (σ.serialize.load heap junk).Linked q ↔
      ∃ p, σ.Linked p ∧ σ.serialize.place heap.length p = q := by
  rw [(rep.load_represents heap junk).linked_iff]
  simp only [List.mem_map, rep.linked_iff]
  constructor
  · rintro ⟨hv, p, mem, same⟩
    exact ⟨p, ⟨hv, mem⟩, same⟩
  · rintro ⟨p, ⟨hv, mem⟩, same⟩
    exact ⟨hv, p, mem, same⟩

/-- Every filter is found again under its key, up to the field a dump leaves out. -/
theorem holds_load (rep : Represents σ B) {key : CString} {b : Bloom} (held : σ.Holds key p b) :
    (σ.serialize.load heap junk).Holds key (σ.serialize.place heap.length p)
      { b with bytes := junk ((σ.serialize.nodes.map Prod.fst).idxOf p) } :=
  ⟨(rep.linked_load heap junk).mpr ⟨p, held.1, rfl⟩, rep.load_bloomAt heap junk held.1 held.2.1,
    held.2.2⟩

theorem contents_load (rep : Represents σ B) (key : CString) :
    ((σ.serialize.load heap junk).contents key).map Bloom.dumped =
      (σ.contents key).map Bloom.dumped := by
  cases found : σ.contents key with
  | some b =>
      obtain ⟨p, held⟩ := rep.contents_iff.mp found
      rw [(rep.load_represents heap junk).contents_of_holds (rep.holds_load heap junk held)]
      rfl
  | none =>
      have absent := rep.contents_eq_none_iff.mp found
      rw [Option.map_none, Option.map_eq_none_iff,
        (rep.load_represents heap junk).contents_eq_none_iff]
      rintro ⟨q, c, linked, read, same⟩
      obtain ⟨p, old, rfl⟩ := (rep.linked_load heap junk).mp linked
      obtain ⟨hv, mem⟩ := rep.linked_iff.mp old
      obtain ⟨b, readb, _⟩ := rep.placed hv p mem
      rw [rep.load_bloomAt heap junk old readb, Option.some.injEq] at read
      subst read
      exact absent ⟨p, b, old, readb, same⟩

end Represents
end BloomServer
