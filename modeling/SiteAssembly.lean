import SiteAssembly.Main
import SiteAssembly.Proofs.Build.Ending
import SiteAssembly.Proofs.Build.PassThrough
import SiteAssembly.Proofs.Build.Placement
import SiteAssembly.Proofs.Build.Repeat
import SiteAssembly.Proofs.Build.Sources
import SiteAssembly.Proofs.Command.Ordering
import SiteAssembly.Proofs.Command.Output
import SiteAssembly.Proofs.Config.BaseDirectory
import SiteAssembly.Proofs.Config.Modes
import SiteAssembly.Proofs.Config.Recheck
import SiteAssembly.Proofs.Config.Separation
import SiteAssembly.Proofs.Expansion.Framing
import SiteAssembly.Proofs.Expansion.Independence
import SiteAssembly.Proofs.Expansion.Inlining
import SiteAssembly.Proofs.Expansion.Lasting
import SiteAssembly.Proofs.Expansion.Locality
import SiteAssembly.Proofs.Expansion.Origin
import SiteAssembly.Proofs.Expansion.Turns
import SiteAssembly.Proofs.Expansion.Unreadable
import SiteAssembly.Proofs.Log.Delivery
import SiteAssembly.Proofs.Scan.Detours
import SiteAssembly.Proofs.Text.Encoding
import SiteAssembly.Proofs.Tree.Renewing
import SiteAssembly.Proofs.Tree.Saving
