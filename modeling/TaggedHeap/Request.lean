import TaggedHeap.Query
import TaggedHeap.Update

namespace TaggedHeap

inductive Request
  | query (q : Query)
  | update (u : Update)

namespace Request

def run (h : Heap) : Request → Outcome Datum
  | query q => q.run h
  | update u => u.run h

/-- The heap after a program. A failing step does not stop the steps behind it. -/
def runAll (h : Heap) (program : List Request) : Heap :=
  program.foldl (fun h r ↦ (r.run h).2) h

end Request

end TaggedHeap
