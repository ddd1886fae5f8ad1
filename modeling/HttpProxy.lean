import HttpProxy.Asio
import HttpProxy.Cpp
import HttpProxy.Http
import HttpProxy.Library.Hosting
import HttpProxy.Library.Log
import HttpProxy.Library.Search
import HttpProxy.Library.Simulation
import HttpProxy.Library.Transition
import HttpProxy.Relay
import HttpProxy.Server
import HttpProxy.Socket
import HttpProxy.Step
import HttpProxy.Theorems.Attendance
import HttpProxy.Theorems.Bodies
import HttpProxy.Theorems.Chain
import HttpProxy.Theorems.Chunks
import HttpProxy.Theorems.Clarity
import HttpProxy.Theorems.Conversation
import HttpProxy.Theorems.Deadline
import HttpProxy.Theorems.Exchange
import HttpProxy.Theorems.Failures
import HttpProxy.Theorems.Faults
import HttpProxy.Theorems.Fields
import HttpProxy.Theorems.Framing
import HttpProxy.Theorems.Gate
import HttpProxy.Theorems.Handlers
import HttpProxy.Theorems.Names
import HttpProxy.Theorems.Outcome
import HttpProxy.Theorems.Recognition
import HttpProxy.Theorems.Refinement
import HttpProxy.Theorems.Release
import HttpProxy.Theorems.Replies
import HttpProxy.Theorems.Requests
import HttpProxy.Theorems.Routing
import HttpProxy.Theorems.Sections
import HttpProxy.Theorems.Serving
import HttpProxy.Theorems.Smooth
import HttpProxy.Theorems.Stop
import HttpProxy.Theorems.Stranded
import HttpProxy.Theorems.Timeout
import HttpProxy.Theorems.Transcript
import HttpProxy.Theorems.Transparency
import HttpProxy.Theorems.Watchdog
import HttpProxy.Theorems.Writes
import HttpProxy.Utils
