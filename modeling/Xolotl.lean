import Xolotl.Codec.Transport
import Xolotl.Core.AuthorityHistory
import Xolotl.Core.Cancellation
import Xolotl.Core.Cleanup
import Xolotl.Core.Link
import Xolotl.Core.Loser
import Xolotl.Federation.Delivery
import Xolotl.Federation.Grants
import Xolotl.Gateway.SecureEnvelope
import Xolotl.Gateway.Store
import Xolotl.Kernel.Collect
import Xolotl.Kernel.Delegation
import Xolotl.Kernel.HandleOwner
import Xolotl.Kernel.ProcessLedger
import Xolotl.Kernel.RangePool
import Xolotl.Kernel.RateLimit
import Xolotl.Source.Ingestion
import Xolotl.Source.Rate
import Xolotl.Standard.Approval
import Xolotl.Types.Collections
import Xolotl.Types.Idempotency
import Xolotl.Types.Utf8
