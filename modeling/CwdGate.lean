import CwdGate.Storage.LruHash
import CwdGate.Rbtree.Run
import CwdGate.Encode.Edns
import CwdGate.Validator.Nsec3Chain
import CwdGate.Validator.NegCacheRun
import CwdGate.Validator.AutotrustAssemble
import CwdGate.Services.MeshRun
import CwdGate.Subnet.AddrtreeRun
import CwdGate.Iterator.ScrubAlias
import CwdGate.Services.DnsCache
import CwdGate.Services.LocalZoneImplicit
import CwdGate.Validator.CanonicalBounds
import CwdGate.Validator.SigcryptFrame
import CwdGate.Validator.DsVerify
import CwdGate.Validator.ReplySections
import CwdGate.Validator.FindKey
import CwdGate.Authzone.ZoneRecords
import CwdGate.WgUi.WireGuard
import CwdGate.Sldns.Period
import CwdGate.Util.Netblock
import CwdGate.Iterator.Rtt
import CwdGate.Services.StreamId
import CwdGate.Services.CheckQname
