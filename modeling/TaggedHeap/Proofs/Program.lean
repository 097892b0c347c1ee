import TaggedHeap.Proofs.Arising

namespace TaggedHeap

inductive Action
  | request (r : Request)
  | take (x : Handle)
  | letGo (x : Handle)
  | report (e : Event)
  | drain

namespace Action

def run (h : Heap) : Action → Outcome Datum
  | request r => r.run h
  | take x => (.ok (.handle x), h.take x)
  | letGo x => (.ok .absent, h.letGo x)
  | report e => (.ok .absent, h.report e)
  | drain => (.ok .absent, h.drain.2)

def runAll (h : Heap) (program : List Action) : Heap :=
  program.foldl (fun h a ↦ (a.run h).2) h

theorem keeps (a : Action) (h : Heap) : h.Keeps (a.run h).2 := by
  cases a with
  | request r => exact r.keeps h
  | take _ | report _ | drain => exact Heap.keeps_of_eq rfl rfl rfl
  | letGo x =>
    have hr := h.keeps_release x
    exact ⟨hr.evolves, hr.values, hr.symbols, hr.live⟩

theorem arises {h : Heap} (ha : Heap.Arises h) (a : Action) : Heap.Arises (a.run h).2 := by
  cases a with
  | request r => exact ha.run r trivial
  | take x => exact ha.take x
  | letGo x => exact ha.letGo x
  | report e => exact ha.report e
  | drain => exact ha.drain

theorem arises_runAll {h : Heap} (ha : Heap.Arises h) (program : List Action) :
    Heap.Arises (runAll h program) := by
  induction program generalizing h with
  | nil => exact ha
  | cons a program ih => exact ih (a.arises ha)

end Action

end TaggedHeap
