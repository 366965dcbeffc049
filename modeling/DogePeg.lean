import DogePeg.Vm.Heights
import DogePeg.Bridge.Circulation
import DogePeg.Bridge.Policy
import DogePeg.Signer.Durable
import DogePeg.Vm.Rejection
import DogePeg.Signer.Clearing
import DogePeg.Bridge.SharedFiles
import DogePeg.Vm.Parsing
import DogePeg.Quorum.Fees
import DogePeg.Signer.Unseen
import DogePeg.Signer.Advance
import DogePeg.Web.Watching
import DogePeg.Web.Imports
import DogePeg.Signer.Replacements
import DogePeg.Signer.Pricing
import DogePeg.Signer.Pause
import DogePeg.Web.Tiers
import DogePeg.Signer.Daily
import DogePeg.Bridge.Evidence
import DogePeg.Signer.Rebuild
import DogePeg.Signer.Reload
import DogePeg.Signer.Adoption
import DogePeg.Bridge.WalletReads
import DogePeg.Signer.Messages
import DogePeg.Signer.LineBounds
import DogePeg.Web.Deposits
import DogePeg.Bridge.KeyPayments
