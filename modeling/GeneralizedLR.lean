import GeneralizedLR.Combinator
import GeneralizedLR.Main
import GeneralizedLR.Proofs.Arithmetic.Agreement
import GeneralizedLR.Proofs.Arithmetic.Canonical
import GeneralizedLR.Proofs.Arithmetic.Deletion
import GeneralizedLR.Proofs.Arithmetic.Insertion
import GeneralizedLR.Proofs.Arithmetic.Printing
import GeneralizedLR.Proofs.Arithmetic.Spans
import GeneralizedLR.Proofs.Combinator
import GeneralizedLR.Proofs.Engine.Abandoned
import GeneralizedLR.Proofs.Engine.Balance
import GeneralizedLR.Proofs.Engine.Blindness
import GeneralizedLR.Proofs.Engine.Finished
import GeneralizedLR.Proofs.Engine.Halting
import GeneralizedLR.Proofs.Engine.Reordering
import GeneralizedLR.Proofs.Engine.Serials
import GeneralizedLR.Proofs.Engine.Stability
import GeneralizedLR.Proofs.Engine.Survival
import GeneralizedLR.Proofs.Engine.Transparency
import GeneralizedLR.Proofs.Engine.Units
import GeneralizedLR.Proofs.Head.Representatives
import GeneralizedLR.Proofs.Script
import GeneralizedLR.Proofs.Engine.Throughout
import GeneralizedLR.Proofs.Stack.Comparison
import GeneralizedLR.Proofs.Table
