import Posterior.Distribution.Standard
import Posterior.Inference
import Posterior.Primitive
import Posterior.Proofs.Acceptance
import Posterior.Proofs.Accounts
import Posterior.Proofs.Addition
import Posterior.Proofs.DataTexts
import Posterior.Proofs.DirectSampling
import Posterior.Proofs.Drawing
import Posterior.Proofs.Exchange
import Posterior.Proofs.Flattening
import Posterior.Proofs.Keys
import Posterior.Proofs.Operations
import Posterior.Proofs.Phases
import Posterior.Proofs.Probabilities
import Posterior.Proofs.ReadingBack
import Posterior.Proofs.Reentrance
import Posterior.Proofs.SampledPath
import Posterior.Proofs.SampledValues
import Posterior.Proofs.Scopes
import Posterior.Proofs.Scores
import Posterior.Proofs.Support
import Posterior.Proofs.Tally
import Posterior.Proofs.Transparency
import Posterior.Run.Fuel
import Posterior.Value.Json
