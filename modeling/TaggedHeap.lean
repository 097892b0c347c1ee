import TaggedHeap.Guard
import TaggedHeap.Request
import TaggedHeap.Session
import TaggedHeap.Proofs.Answers
import TaggedHeap.Proofs.Collection
import TaggedHeap.Proofs.Operands
import TaggedHeap.Proofs.Staleness
import TaggedHeap.Proofs.Guarding
import TaggedHeap.Proofs.Unobservable
import TaggedHeap.Proofs.Balance
import TaggedHeap.Proofs.Sharing
import TaggedHeap.Proofs.Atomicity
import TaggedHeap.Proofs.Blame
import TaggedHeap.Proofs.Strings
import TaggedHeap.Proofs.Symbols
import TaggedHeap.Proofs.Accounting
import TaggedHeap.Proofs.Walking
import TaggedHeap.Proofs.Enclosing
import TaggedHeap.Proofs.Circling
import TaggedHeap.Proofs.Assigning
import TaggedHeap.Proofs.Defining
import TaggedHeap.Proofs.Addressing
import TaggedHeap.Proofs.Shaping
import TaggedHeap.Proofs.Storing
import TaggedHeap.Proofs.Lenses
import TaggedHeap.Proofs.Tenancy
import TaggedHeap.Proofs.Listing
import TaggedHeap.Proofs.Naming
import TaggedHeap.Proofs.Retention
import TaggedHeap.Proofs.Contents
import TaggedHeap.Proofs.Spelling
import TaggedHeap.Proofs.Housekeeping
import TaggedHeap.Proofs.Worklist
