import Wadm.Manifest
import Wadm.Label
import Wadm.Validate
import Wadm.StoredManifest
import Wadm.Store
import Wadm.Prog
import Wadm.Handler
import Wadm.System
import Wadm.Safety
import Wadm.Admission
import Wadm.Notify
import Wadm.Delete
import Wadm.Linearize
import Wadm.Laws
import Wadm.Lifecycle
import Wadm.Refinement
import Wadm.Provenance
import Wadm.Providers
import Wadm.Durability
import Wadm.PutsAndReads
