import Ashd.Accesslog.Filter
import Ashd.Accesslog.Locking
import Ashd.Cgi.Bridges
import Ashd.Cgi.Connection
import Ashd.Cgi.Fcgi
import Ashd.Cgi.Headers
import Ashd.Cgi.Netstring
import Ashd.Cgi.Outplex
import Ashd.Cgi.Params
import Ashd.Cgi.Response
import Ashd.Cgi.Scgi
import Ashd.Cgi.Wsgi
import Ashd.Common.Advisory
import Ashd.Common.Binary64
import Ashd.Common.Bits
import Ashd.Common.Block
import Ashd.Common.Bytes
import Ashd.Common.Coding
import Ashd.Common.Coroutine
import Ashd.Common.Expansion
import Ashd.Common.Keyed
import Ashd.Common.Kids
import Ashd.Common.LeakyBucket
import Ashd.Common.Lifetime
import Ashd.Common.Message
import Ashd.Common.Paths
import Ashd.Common.Probe
import Ashd.Common.Regex
import Ashd.Common.Run
import Ashd.Common.Scan
import Ashd.Dirplex.ConfCache
import Ashd.Dirplex.Confinement
import Ashd.Dirplex.FileName
import Ashd.Dirplex.Headmods
import Ashd.Dirplex.Mapping
import Ashd.Dirplex.Redirect
import Ashd.Dirplex.Search
import Ashd.Dirplex.Selection
import Ashd.Forking.Httrcall
import Ashd.Forking.Multifscgi
import Ashd.Forking.Userplex
import Ashd.Htextauth.Freshness
import Ashd.Htextauth.Passing
import Ashd.Htparser.Canonical
import Ashd.Htparser.ChunkSizes
import Ashd.Htparser.Chunks
import Ashd.Htparser.Connid
import Ashd.Htparser.Copy
import Ashd.Htparser.Descriptors
import Ashd.Htparser.Duplex
import Ashd.Htparser.Fidelity
import Ashd.Htparser.Forgery
import Ashd.Htparser.Framing
import Ashd.Htparser.Model
import Ashd.Htparser.Response
import Ashd.Lib.Base64
import Ashd.Lib.BtreeHeight
import Ashd.Lib.BtreeSet
import Ashd.Lib.Bufio
import Ashd.Lib.BufioFailure
import Ashd.Lib.BufioRead
import Ashd.Lib.BufioWrite
import Ashd.Lib.CfBlocks
import Ashd.Lib.CfChild
import Ashd.Lib.CfInclude
import Ashd.Lib.CfNesting
import Ashd.Lib.CfStack
import Ashd.Lib.Children
import Ashd.Lib.Datagram
import Ashd.Lib.Forkserve
import Ashd.Lib.HeaderGrammar
import Ashd.Lib.Httpdate
import Ashd.Lib.Mt
import Ashd.Lib.MtpipeFaithful
import Ashd.Lib.Quoting
import Ashd.Lib.Req
import Ashd.Lib.Stdiofd
import Ashd.Lib.Tokenize
import Ashd.Lib.Utils
import Ashd.Mtio.Dispatch
import Ashd.Mtio.Refusal
import Ashd.Mtio.Registration
import Ashd.Patplex.Captures
import Ashd.Patplex.FileSelect
import Ashd.Patplex.Offsets
import Ashd.Patplex.Readconf
import Ashd.Patplex.Reparse
import Ashd.Patplex.Restpat
import Ashd.Python.Epoller
import Ashd.Python.Httpdate
import Ashd.Python.Proto
import Ashd.Python.Registry
import Ashd.Python.Shutdown
import Ashd.Python.Ssi
import Ashd.Python.SsiPages
import Ashd.Python.Stranding
import Ashd.Ratequeue.Admission
import Ashd.Ratequeue.Deadlines
import Ashd.Ratequeue.Discarding
import Ashd.Ratequeue.Mainloop
import Ashd.Sendfile.Agreement
import Ashd.Sendfile.Compress
import Ashd.Sendfile.Ranges
import Ashd.Ssl.Options
import Ashd.Ssl.Sessions
