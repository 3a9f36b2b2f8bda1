import AlibC.BinaryBufferInvariant
import AlibC.Lib.Machine

/-! The growing fragment of `BinaryBuffer` refines a plain list of bytes. -/
namespace AlibC.BinaryBuffer

open CLang

inductive GrowthOp where
  | append (data : Block)
  | appendNull (dataLen : SizeT)
  | resize (newSize : SizeT)
  | expandToTarget (target : SizeT)
  | shrinkToFit
  | clear
  | clearNoResize
  | extractBuffer

/-- What a call returns. The caller of `extractBuffer` has asked for the length before
and reads that many bytes of the block. -/
inductive Reply where
  | code (e : AlibError)
  | bytes (bs : Block)
  | done
deriving DecidableEq, Repr

/-- One call, with the allocator it meets. -/
def growthStep (b : BinaryBuffer) : Alloc UInt8 × GrowthOp → Outcome (Reply × BinaryBuffer)
  | (al, .append data) => do
    let (e, b) ← append al b (some data) data.length
    return (.code e, b)
  | (al, .appendNull dataLen) => do
    let (e, b) ← append al b none dataLen
    return (.code e, b)
  | (al, .resize newSize) => .ok (.code (resize al b newSize).1, (resize al b newSize).2)
  | (al, .expandToTarget target) => do
    let (e, b) ← expandToTarget al b target
    return (.code e, b)
  | (al, .shrinkToFit) => .ok (.done, b.shrinkToFit al)
  | (al, .clear) => .ok (.done, b.clear al)
  | (_, .clearNoResize) => .ok (.done, b.clearNoResize)
  | (_, .extractBuffer) => do
    let bs ← load b.extractBuffer.1 0 b.len
    return (.bytes bs, b.extractBuffer.2)

/-- The same on a list of bytes. Only `resize` can truncate: `expandToTarget` never
lowers the capacity. -/
def listStep (minCap : Nat) (l : Block) : Alloc UInt8 × GrowthOp → Reply × Block
  | (_, .append data) => (.code .ok, l ++ data)
  | (_, .appendNull _) => (.code .badArg, l)
  | (_, .resize newSize) => (.code .ok, l.take (max newSize minCap))
  | (_, .expandToTarget _) => (.code .ok, l)
  | (_, .shrinkToFit) => (.done, l)
  | (_, .clear) => (.done, [])
  | (_, .clearNoResize) => (.done, [])
  | (_, .extractBuffer) => (.bytes l, [])

/-- Allocations succeed, and the length after an `append` is a `size_t`. -/
def Admissible (l : Block) : Alloc UInt8 × GrowthOp → Prop
  | (al, .append data) => al.Succeeds ∧ l.length + data.length ≤ ULONG_MAX
  | (al, _) => al.Succeeds

/-- The buffer holds the list and keeps the minimum capacity it was made with. -/
structure Holds (minCap : Nat) (b : BinaryBuffer) (l : Block) : Prop where
  wf : b.WF
  contents_eq : b.contents = l
  minCap_eq : b.minCap = minCap

theorem Holds.length_eq {minCap : Nat} {b : BinaryBuffer} {l : Block} (h : Holds minCap b l) :
    b.len = l.length := by
  rw [← h.contents_eq, h.wf.length_contents]

theorem growthStep_simulates {minCap : Nat} (b : BinaryBuffer) (l : Block)
    (i : Alloc UInt8 × GrowthOp) (h : Holds minCap b l) (hok : Admissible l i) :
    ∃ b', growthStep b i = .ok ((listStep minCap l i).1, b') ∧
      Holds minCap b' (listStep minCap l i).2 := by
  obtain ⟨al, op⟩ := i
  cases op with
  | append data =>
    obtain ⟨hal, hlen⟩ := hok
    rw [← h.length_eq] at hlen
    obtain ⟨b', he, hwf, hc, -, hs⟩ := append_eq hal h.wf (Nat.le_refl data.length)
      (lt_of_le_max hlen)
    exact ⟨b', by simp [growthStep, listStep, he], hwf,
      by simp [hc, h.contents_eq, listStep], hs.1.trans h.minCap_eq⟩
  | appendNull dataLen =>
    exact ⟨b, by simp [growthStep, listStep, append_null], h⟩
  | resize newSize =>
    obtain ⟨b', he, hwf, -, hc, hs⟩ := resize_eq hok h.wf newSize.lt
    exact ⟨b', by simp [growthStep, listStep, he], hwf,
      by rw [hc, h.contents_eq, h.minCap_eq]; rfl, hs.1.trans h.minCap_eq⟩
  | expandToTarget target =>
    obtain ⟨b', he, hwf, -, -, hc, -, hs, -⟩ := expandToTarget_eq hok h.wf target.lt
    exact ⟨b', by simp [growthStep, listStep, he], hwf, hc.trans h.contents_eq,
      hs.1.trans h.minCap_eq⟩
  | shrinkToFit =>
    obtain ⟨hwf, hc, -, hs⟩ := shrinkToFit_eq hok h.wf
    exact ⟨_, rfl, hwf, hc.trans h.contents_eq, hs.1.trans h.minCap_eq⟩
  | clear =>
    obtain ⟨hwf, hl, hs⟩ := clear_eq al h.wf
    exact ⟨_, rfl, hwf, contents_of_len_zero hl, hs.1.trans h.minCap_eq⟩
  | clearNoResize =>
    exact ⟨_, rfl, h.wf.clearNoResize, contents_of_len_zero rfl, h.minCap_eq⟩
  | extractBuffer =>
    have hl : load b.buff 0 b.len = .ok l := by rw [h.wf.load_contents, h.contents_eq]
    exact ⟨_, by simp [growthStep, listStep, extractBuffer, hl], h.wf.released,
      contents_of_len_zero rfl, h.minCap_eq⟩

/-- From a fresh buffer, whatever its minimum capacity and its expansion limit, every
run of the growing operations behaves as on the list of its bytes. The bounds hold in
each state on the way, and since a write outside the allocated block faults, none
happens. -/
theorem growth_refines_list {al : Alloc UInt8} {data : Option Block}
    {dataLen startCap minCap maxExpand : SizeT} {b : BinaryBuffer}
    (hnew : newEx al data dataLen startCap minCap maxExpand = .ok (some b))
    (ops : List (Alloc UInt8 × GrowthOp))
    (hops : Machine.AllTrace (listStep minCap) Admissible b.contents ops)
    (pre post : List (Alloc UInt8 × GrowthOp)) (hpre : ops = pre ++ post) :
    (∀ d, data = some d → b.contents = d.take dataLen) ∧
    ∃ b', Machine.run growthStep b pre =
        .ok ((Machine.trace (listStep minCap) b.contents pre).1, b') ∧
      b'.contents = (Machine.trace (listStep minCap) b.contents pre).2 ∧
      b'.len ≤ b'.capacity ∧ (b'.buff = none ↔ b'.capacity = 0) ∧
      (b'.buff.getD []).length = b'.capacity := by
  obtain ⟨hwf, hmin, -, hdata⟩ := newEx_eq startCap.lt minCap.lt dataLen.lt hnew
  subst hpre
  obtain ⟨b', hr, h⟩ := Machine.run_simulates growthStep_simulates pre b b.contents
    ⟨hwf, rfl, hmin⟩ hops.of_append
  exact ⟨hdata, b', hr, h.contents_eq, h.wf.len_le, h.wf.null, h.wf.block⟩

/-- A run in which the capacity grows past the minimum and is then cut back to it. -/
theorem growth_refines_list_resized :
    ∃ b', Machine.run growthStep ⟨some [0, 0], 0, 2, 2, 1⟩
        [(.filled 0, .append [1, 2, 3]), (.filled 0, .resize 1)] =
          .ok ([.code .ok, .code .ok], b') ∧
      b'.contents = [1, 2] ∧ b'.len ≤ b'.capacity ∧ (b'.buff = none ↔ b'.capacity = 0) ∧
      (b'.buff.getD []).length = b'.capacity :=
  (growth_refines_list
    (show newEx (.filled 0) none (0 : SizeT) (0 : SizeT) (2 : SizeT) (1 : SizeT) =
      .ok (some ⟨some [0, 0], 0, 2, 2, 1⟩) from rfl)
    [(.filled 0, .append [1, 2, 3]), (.filled 0, .resize 1)]
    ⟨⟨Alloc.filled_succeeds 0, by decide⟩, Alloc.filled_succeeds 0, trivial⟩
    _ [] (List.append_nil _).symm).2

end AlibC.BinaryBuffer
