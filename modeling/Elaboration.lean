import Elaboration.Arena
import Elaboration.Proofs.Channel.Delivery
import Elaboration.Main
import Elaboration.Proofs.Equalities.Exchange
import Elaboration.Proofs.Equalities.Termination
import Elaboration.Proofs.Equation.Exposure
import Elaboration.Proofs.Equation.Solutions
import Elaboration.Proofs.Equation.Reflexive
import Elaboration.Proofs.Obligation.Checking
import Elaboration.Proofs.Obligation.Usage
import Elaboration.Proofs.Reduction.Memory
import Elaboration.Proofs.Session.Commitment
import Elaboration.Proofs.Session.Cycles
import Elaboration.Proofs.Session.Plain
import Elaboration.Proofs.Session.Produced
import Elaboration.Proofs.Session.Rejected
import Elaboration.Proofs.Session.Scoping
import Elaboration.Proofs.Term.Reading
